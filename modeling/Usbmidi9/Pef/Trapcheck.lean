/-
  USBMIDI9 — the scan for debugger traps (`pefcheck/src/trapcheck.rs`).

  `scanSection` reports every trap word of a section, with the tag that `identifyTag` finds
  in the 64 instructions before it: of the last instruction that loads one of `trapTags`.

  A load is `li rX,t`, or `lis rX,hi` and `ori rX,rX,lo` behind it (`LoadsTag`).  The scan
  does not compare the register of the `lis` with that of the `ori`, so it also takes a
  pair for a load that fills two registers (`MixedPair`).  `scanSection_tags_iff` says when
  this does no harm.
-/
import Usbmidi9.Lib.DForm
import Usbmidi9.Lib.Last
import Usbmidi9.Pef.Disasm

namespace Usbmidi9

open Outcome

/-! ## The scan -/

/-- A tag, and how it is printed. -/
abbrev TrapTag := UInt32 × String

/-- `TAGS`. -/
def trapTags : List TrapTag :=
  [(0x0E0, "E0"), (0x100, "I0"), (0x101, "I1"), (0x102, "I2"), (0x103, "I3"), (0x104, "I4"),
    (0x105, "I5"), (0x106, "I6"), (0x1F0, "IR"), (0x200, "T0"), (0x201, "T1"), (0x202, "T2"),
    (0x203, "T3"), (0x204, "T4"), (0x205, "T5")]

/-- `TAG_SCAN_WINDOW`. -/
abbrev tagScanWindow : ℕ := 64

/-- `TrapHit`. -/
structure TrapHit where
  codeOffset : ℕ
  containerOffset : ℕ
  tag : Option TrapTag
  nextWord : UInt32
  nextDecode : String
deriving DecidableEq, Repr

/-- `word_at`. -/
def codeWordAt (bytes : List UInt8) (i : ℕ) : Outcome Empty (Option UInt32) := do
  let o ← word (4 * i)
  let e ← word (o + 4)
  if bytes.length < e then .ok none
  else do
    let w ← u32At bytes o
    .ok (some w)

/-- `TAGS.iter().find`: the tag that has a value. -/
def tagOf (val : Int32) : Option TrapTag := trapTags.find? fun t => t.1.toInt32 = val

/-- `lis rX,hi` and `ori rX,rX,lo`, from the first word `w` on. -/
def identifyPair (words : List UInt8) (i : ℕ) (w : UInt32) : Outcome Empty (Option TrapTag) := do
  let next ← word (i + 1)
  match ← codeWordAt words next with
  | none => .ok none
  | some nw =>
    if nw >>> 26 = 24 ∧ ((nw >>> 16) &&& 31 : UInt32) = (nw >>> 21) &&& 31 then
      .ok (tagOf (((sign16 w).toUInt32 <<< 16) ||| (nw &&& 0xFFFF)).toInt32)
    else .ok none

/-- The body of the loop of `identify_tag`; a tag ends the loop. -/
def identifyTagAt (words : List UInt8) (i : ℕ) : Outcome Empty (Option TrapTag) := do
  match ← codeWordAt words i with
  | none => .ok none
  | some w =>
    match (if w >>> 26 = 14 ∧ (w >>> 16) &&& 31 = 0 then tagOf (sign16 w) else none) with
    | some tag => .ok (some tag)
    | none =>
      if w >>> 26 = 15 ∧ (w >>> 16) &&& 31 = 0 then identifyPair words i w else .ok none

/-- The loop `for i in (start..start + n).rev()` of `identify_tag`. -/
def identifyTagLoop (words : List UInt8) (start : ℕ) : ℕ → Outcome Empty (Option TrapTag)
  | 0 => .ok none
  | n + 1 => do
    match ← identifyTagAt words (start + n) with
    | some tag => .ok (some tag)
    | none => identifyTagLoop words start n

/-- `identify_tag`. -/
def identifyTag (words : List UInt8) (trapIndex : ℕ) : Outcome Empty (Option TrapTag) :=
  let start := trapIndex - tagScanWindow
  identifyTagLoop words start (trapIndex - start)

/-- The body of the loop of `scan_section`. -/
def scanWord (bytes : List UInt8) (containerOffset : ℕ) (hits : List TrapHit) (i : ℕ) :
    Outcome Empty (List TrapHit) := do
  let w ← u32At bytes (4 * i)
  if w = trapWord then
    let nextWord ← (if i + 1 < bytes.length / 4 then u32At bytes (4 * (i + 1)) else .ok 0)
    let tag ← identifyTag bytes i
    let offset ← word (containerOffset + 4 * i)
    .ok (hits ++ [⟨4 * i, offset, tag, nextWord, decode nextWord⟩])
  else .ok hits

/-- `scan_section`. -/
def scanSection (bytes : List UInt8) (containerOffset : ℕ) : Outcome Empty (List TrapHit) :=
  foldl (scanWord bytes containerOffset) (List.range (bytes.length / 4)) []

/-! ## Loads of a tag -/

/-- The instruction at an index. -/
def codeWord (bytes : List UInt8) (i : ℕ) : Option UInt32 :=
  if 4 * i + 4 ≤ bytes.length then some (wordAt bytes (4 * i)) else none

/-- `li r,imm`. -/
def liWord (r : Fin 32) (imm : UInt16) : UInt32 := (DForm.mk 14 r 0 imm).word

/-- `lis r,imm`. -/
def lisWord (r : Fin 32) (imm : UInt16) : UInt32 := (DForm.mk 15 r 0 imm).word

/-- `ori r,r,imm`. -/
def oriWord (r : Fin 32) (imm : UInt16) : UInt32 := (DForm.mk 24 r r imm).word

/-- `lis r,hi` and behind it `ori r',r',lo`, which together have the value `t`. -/
def LoadsPair (bytes : List UInt8) (i : ℕ) (r r' : Fin 32) (t : UInt32) : Prop :=
  ∃ hi lo, codeWord bytes i = some (lisWord r hi) ∧ codeWord bytes (i + 1) = some (oriWord r' lo) ∧
    hi.toNat * 2 ^ 16 + lo.toNat = t.toNat

/-- **The instruction at `i` loads a known tag** into a register, alone or with the next. -/
inductive LoadsTag (bytes : List UInt8) (i : ℕ) (tag : TrapTag) : Prop
  | li {r imm} : tag ∈ trapTags → codeWord bytes i = some (liWord r imm) →
      imm.toInt16.toInt = tag.1.toNat → LoadsTag bytes i tag
  | pair {r} : tag ∈ trapTags → LoadsPair bytes i r r tag.1 → LoadsTag bytes i tag

/-- A pair that has the value of a known tag, but in two registers. -/
def MixedPair (bytes : List UInt8) (i : ℕ) (tag : TrapTag) : Prop :=
  tag ∈ trapTags ∧ ∃ r r', r ≠ r' ∧ LoadsPair bytes i r r' tag.1

/-- What is to be reported of the trap at `k`: the tag that the last load among the 64
    instructions before it loads. -/
def TagRight (bytes : List UInt8) (k : ℕ) (found : Option TrapTag) : Prop :=
  ∀ tag, found = some tag ↔
    ∃ i, LastIn (fun i => ∃ t, LoadsTag bytes i t) (k - tagScanWindow) k i ∧ LoadsTag bytes i tag

/-- One hit for each trap word, in the order of their offsets. -/
structure TrapsReported (bytes : List UInt8) (hits : List TrapHit) : Prop where
  increasing : (hits.map TrapHit.codeOffset).Pairwise (· < ·)
  exact : ∀ o, o ∈ hits.map TrapHit.codeOffset ↔ ∃ k, o = 4 * k ∧ codeWord bytes k = some trapWord

/-- Where the last load before a trap, with pairs in two registers counted as loads, is such
    a pair, the last proper load before it loads the same tag. -/
def PairsHarmless (bytes : List UInt8) : Prop :=
  ∀ k, codeWord bytes k = some trapWord → ∀ i tag,
    LastIn (fun i => ∃ t, LoadsTag bytes i t ∨ MixedPair bytes i t) (k - tagScanWindow) k i →
    MixedPair bytes i tag →
    ∃ j, LastIn (fun j => ∃ t, LoadsTag bytes j t) (k - tagScanWindow) k j ∧ LoadsTag bytes j tag

/-! ## One instruction -/

/-- What the scan takes the instruction at `i` to load, or if `strict`, what it loads. -/
def tagAt (strict : Bool) (bytes : List UInt8) (i : ℕ) : Option TrapTag :=
  match codeWord bytes i with
  | none => none
  | some w =>
    let x := DForm.ofWord w
    if x.op = 14 ∧ x.a = 0 then tagOf x.imm.toInt16.toInt32
    else if x.op = 15 ∧ x.a = 0 then
      match codeWord bytes (i + 1) with
      | none => none
      | some nw =>
        let y := DForm.ofWord nw
        if y.op = 24 ∧ y.a = y.d ∧ (strict → y.d = x.d) then
          tagOf ((x.imm.toInt16.toInt32.toUInt32 <<< 16) ||| y.imm.toUInt32).toInt32
        else none
    else none

theorem codeWordAt_eq {bytes : List UInt8} {i : ℕ} (h : 4 * i + 4 < wordSize) :
    codeWordAt bytes i = .ok (codeWord bytes i) := by
  unfold codeWordAt codeWord
  rw [word_eq (by omega), ok_bind, word_eq h, ok_bind]
  by_cases hin : 4 * i + 4 ≤ bytes.length
  · rw [if_neg (by omega), if_pos hin, u32At_eq hin, ok_bind]
  · rw [if_pos (by omega), if_neg hin]

/-- The conditions of the source on a word, in terms of its fields. -/
theorem loadImmediate_iff (w : UInt32) (op : Fin 64) :
    w >>> 26 = .ofNat op.val ∧ (w >>> 16) &&& 31 = 0 ↔
      (DForm.ofWord w).op = op ∧ (DForm.ofWord w).a = 0 := by
  rw [DForm.op_eq_iff, ← UInt32.toNat_inj, DForm.toNat_a, Fin.ext_iff (b := 0)]
  exact Iff.rfl

theorem sign16_eq (w : UInt32) : sign16 w = (DForm.ofWord w).imm.toInt16.toInt32 := by
  rw [sign16, DForm.toUInt16_imm]

theorem and_0xFFFF (w : UInt32) : w &&& 0xFFFF = (DForm.ofWord w).imm.toUInt32 := by
  refine UInt32.toNat_inj.1 ?_
  rw [DForm.toNat_imm, UInt16.toNat_toUInt32]

/-- `ori rX,rX`. -/
theorem oriSame_iff (w : UInt32) :
    w >>> 26 = 24 ∧ ((w >>> 16) &&& 31 : UInt32) = (w >>> 21) &&& 31 ↔
      (DForm.ofWord w).op = 24 ∧ (DForm.ofWord w).a = (DForm.ofWord w).d := by
  have hop := DForm.op_eq_iff w 24
  rw [← UInt32.toNat_inj (a := (w >>> 16) &&& 31), DForm.toNat_a, DForm.toNat_d, ← Fin.ext_iff]
  exact and_congr_left fun _ => hop

theorem identifyPair_eq {words : List UInt8} {i : ℕ} (h : 4 * (i + 1) + 4 < wordSize) (w : UInt32) :
    identifyPair words i w = .ok (match codeWord words (i + 1) with
      | none => none
      | some nw =>
        if (DForm.ofWord nw).op = 24 ∧ (DForm.ofWord nw).a = (DForm.ofWord nw).d then
          tagOf (((DForm.ofWord w).imm.toInt16.toInt32.toUInt32 <<< 16) |||
            (DForm.ofWord nw).imm.toUInt32).toInt32
        else none) := by
  unfold identifyPair
  rw [word_eq (by omega), ok_bind, codeWordAt_eq h, ok_bind]
  rcases codeWord words (i + 1) with _ | nw
  · rfl
  · simp only [oriSame_iff, sign16_eq, and_0xFFFF]
    split_ifs <;> rfl

/-- **The body of the loop** looks at one instruction, or two. -/
theorem identifyTagAt_eq {words : List UInt8} {i : ℕ} (h : 4 * (i + 1) + 4 < wordSize) :
    identifyTagAt words i = .ok (tagAt false words i) := by
  unfold identifyTagAt tagAt
  rw [codeWordAt_eq (by omega), ok_bind]
  rcases codeWord words i with _ | w
  · rfl
  have hli : w >>> 26 = 14 ∧ (w >>> 16) &&& 31 = 0 ↔
    (DForm.ofWord w).op = 14 ∧ (DForm.ofWord w).a = 0 := loadImmediate_iff w 14
  have hlis : w >>> 26 = 15 ∧ (w >>> 16) &&& 31 = 0 ↔
    (DForm.ofWord w).op = 15 ∧ (DForm.ofWord w).a = 0 := loadImmediate_iff w 15
  simp only [hli, hlis, sign16_eq, identifyPair_eq h, Bool.false_eq_true, false_implies, and_true]
  by_cases h14 : (DForm.ofWord w).op = 14 ∧ (DForm.ofWord w).a = 0
  · simp only [if_pos h14]
    have h15 : ¬((DForm.ofWord w).op = 15 ∧ (DForm.ofWord w).a = 0) := by
      rintro ⟨hop, -⟩
      exact absurd (h14.1.symm.trans hop) (by decide)
    rcases tagOf (DForm.ofWord w).imm.toInt16.toInt32 with _ | tag
    · simp only [if_neg h15]
    · rfl
  · simp only [if_neg h14]
    split_ifs
    · rfl
    · rfl

/-- **The loop** returns what it finds last. -/
theorem identifyTagLoop_eq {words : List UInt8} {start n : ℕ}
    (h : 4 * (start + n) + 4 < wordSize) :
    identifyTagLoop words start n = .ok (lastSome (tagAt false words) start n) := by
  induction n with
  | zero => rfl
  | succ n ih =>
    have hat : identifyTagAt words (start + n) = .ok (tagAt false words (start + n)) :=
      identifyTagAt_eq h
    rw [identifyTagLoop, hat, ok_bind, lastSome]
    rcases tagAt false words (start + n) with _ | tag
    · exact ih (by omega)
    · rfl

theorem identifyTag_eq {words : List UInt8} {k : ℕ} (h : 4 * k + 4 < wordSize) :
    identifyTag words k =
      .ok (lastSome (tagAt false words) (k - tagScanWindow) (k - (k - tagScanWindow))) :=
  identifyTagLoop_eq (by omega)

/-! ## Values -/

/-- Tags have different values. -/
theorem tagOf_eq_some {val : Int32} {tag : TrapTag} :
    tagOf val = some tag ↔ tag ∈ trapTags ∧ tag.1.toInt32 = val := by
  have hself : ∀ t ∈ trapTags, tagOf t.1.toInt32 = some t := by decide
  constructor
  · intro h
    exact ⟨List.mem_of_find?_eq_some h, by simpa using List.find?_some h⟩
  · rintro ⟨hmem, rfl⟩
    exact hself tag hmem

/-- The value of a tag is the same with a sign. -/
theorem trapTags_toInt {tag : TrapTag} (h : tag ∈ trapTags) :
    tag.1.toInt32.toInt = tag.1.toNat := by
  have hall : ∀ t ∈ trapTags, t.1.toInt32.toInt = (t.1.toNat : ℤ) := by decide
  exact hall tag h

/-- `li`. -/
theorem tagOf_li {imm : UInt16} {tag : TrapTag} :
    tagOf imm.toInt16.toInt32 = some tag ↔
      tag ∈ trapTags ∧ imm.toInt16.toInt = tag.1.toNat := by
  rw [tagOf_eq_some]
  refine and_congr_right fun hmem => ?_
  rw [← Int32.toInt_inj, Int16.toInt_toInt32, trapTags_toInt hmem]
  exact eq_comm

/-- A half with its sign: only the upper bits depend on the sign. -/
theorem toNat_signed (hi : UInt16) :
    hi.toInt16.toInt32.toUInt32.toNat =
      hi.toNat + if hi.toBitVec.msb then 2 ^ 32 - 2 ^ 16 else 0 := by
  show (hi.toBitVec.signExtend 32).toNat = _
  rw [BitVec.toNat_signExtend, BitVec.toNat_setWidth, Nat.mod_eq_of_lt]
  · rfl
  · exact hi.toNat_lt.trans (by decide)

/-- The sign of the upper half is shifted out. -/
theorem toNat_pair (hi lo : UInt16) :
    ((hi.toInt16.toInt32.toUInt32 <<< 16) ||| lo.toUInt32).toNat = hi.toNat * 2 ^ 16 + lo.toNat := by
  have hlo := lo.toNat_lt
  have hhi := hi.toNat_lt
  have hshift : (hi.toInt16.toInt32.toUInt32 <<< 16).toNat = hi.toNat <<< 16 := by
    have h16 : UInt32.toNat 16 % 32 = 16 := rfl
    rw [UInt32.toNat_shiftLeft, h16, toNat_signed, Nat.shiftLeft_eq, Nat.shiftLeft_eq]
    split_ifs <;> omega
  rw [UInt32.toNat_or, hshift, UInt16.toNat_toUInt32, ← Nat.shiftLeft_add_eq_or_of_lt hlo,
    Nat.shiftLeft_eq]

/-- `lis` and `ori`. -/
theorem tagOf_pair {hi lo : UInt16} {tag : TrapTag} :
    tagOf ((hi.toInt16.toInt32.toUInt32 <<< 16) ||| lo.toUInt32).toInt32 = some tag ↔
      tag ∈ trapTags ∧ hi.toNat * 2 ^ 16 + lo.toNat = tag.1.toNat := by
  rw [tagOf_eq_some]
  refine and_congr_right fun hmem => ?_
  rw [← toNat_pair, UInt32.toNat_inj]
  constructor
  · intro h
    exact (congrArg Int32.toUInt32 h).symm
  · intro h
    rw [h]

section
variable {strict : Bool} {bytes : List UInt8} {i : ℕ} {tag : TrapTag}

theorem tagAt_li {r : Fin 32} {imm : UInt16} (h : codeWord bytes i = some (liWord r imm)) :
    tagAt strict bytes i = tagOf imm.toInt16.toInt32 := by
  simp only [tagAt, h, liWord, DForm.ofWord_word, and_self, if_true]

theorem tagAt_pair {r r' : Fin 32} {hi lo : UInt16}
    (h : codeWord bytes i = some (lisWord r hi)) (h' : codeWord bytes (i + 1) = some (oriWord r' lo))
    (hr : strict = true → r' = r) :
    tagAt strict bytes i =
      tagOf ((hi.toInt16.toInt32.toUInt32 <<< 16) ||| lo.toUInt32).toInt32 := by
  have hop : ¬((15 : Fin 64) = 14 ∧ True) := by decide
  simp only [tagAt, h, h', lisWord, oriWord, DForm.ofWord_word, and_self, if_true, true_and]
  rw [if_neg hop, if_pos hr]

/-- **What the scan takes for a load.** -/
theorem tagAt_eq_some : tagAt strict bytes i = some tag ↔
    tag ∈ trapTags ∧
      ((∃ r imm, codeWord bytes i = some (liWord r imm) ∧ imm.toInt16.toInt = tag.1.toNat) ∨
        ∃ r r', (strict = true → r' = r) ∧ LoadsPair bytes i r r' tag.1) := by
  constructor
  · intro h
    unfold tagAt at h
    rcases hw : codeWord bytes i with _ | w
    · rw [hw] at h
      cases h
    rw [hw] at h
    simp only at h
    split_ifs at h with h14 h15
    · obtain ⟨hmem, hval⟩ := tagOf_li.1 h
      refine ⟨hmem, .inl ⟨(DForm.ofWord w).d, (DForm.ofWord w).imm, ?_, hval⟩⟩
      exact congrArg some (DForm.eq_word h14.1 h14.2)
    · rcases hnw : codeWord bytes (i + 1) with _ | nw
      · rw [hnw] at h
        cases h
      rw [hnw] at h
      simp only at h
      split_ifs at h with h24
      obtain ⟨hmem, hval⟩ := tagOf_pair.1 h
      refine ⟨hmem, .inr ⟨(DForm.ofWord w).d, (DForm.ofWord nw).d, h24.2.2, (DForm.ofWord w).imm,
        (DForm.ofWord nw).imm, ?_, ?_, hval⟩⟩
      · exact hw.trans (congrArg some (DForm.eq_word h15.1 h15.2))
      · exact hnw.trans (congrArg some (DForm.eq_word h24.1 h24.2.1))
  · rintro ⟨hmem, ⟨r, imm, hw, hval⟩ | ⟨r, r', hr, hi, lo, hw, hnw, hval⟩⟩
    · rw [tagAt_li hw]
      exact tagOf_li.2 ⟨hmem, hval⟩
    · rw [tagAt_pair hw hnw hr]
      exact tagOf_pair.2 ⟨hmem, hval⟩

theorem loadsTag_iff : LoadsTag bytes i tag ↔ tagAt true bytes i = some tag := by
  rw [tagAt_eq_some]
  constructor
  · rintro (⟨hmem, hw, hval⟩ | ⟨hmem, hpair⟩)
    · exact ⟨hmem, .inl ⟨_, _, hw, hval⟩⟩
    · exact ⟨hmem, .inr ⟨_, _, fun _ => rfl, hpair⟩⟩
  · rintro ⟨hmem, ⟨r, imm, hw, hval⟩ | ⟨r, r', hr, hpair⟩⟩
    · exact .li hmem hw hval
    · obtain rfl := hr rfl
      exact .pair hmem hpair

/-- A pair in two registers is no load. -/
theorem MixedPair.not_loadsTag {t : TrapTag} (h : MixedPair bytes i tag) : ¬LoadsTag bytes i t := by
  obtain ⟨-, r, r', hne, hi, lo, hw, hnw, -⟩ := h
  rintro (⟨-, hli, -⟩ | @⟨r₁, -, hi₁, lo₁, hlis, hori, -⟩)
  · have heq := DForm.word_injective (Option.some.inj (hw.symm.trans hli))
    exact absurd (congrArg DForm.op heq) (show ¬(15 : Fin 64) = 14 by decide)
  · have hlow := DForm.word_injective (Option.some.inj (hw.symm.trans hlis))
    have hhigh := DForm.word_injective (Option.some.inj (hnw.symm.trans hori))
    exact hne ((congrArg DForm.d hlow).trans (congrArg DForm.d hhigh).symm)

theorem seenTag_iff :
    LoadsTag bytes i tag ∨ MixedPair bytes i tag ↔ tagAt false bytes i = some tag := by
  rw [tagAt_eq_some]
  constructor
  · rintro (hload | ⟨hmem, r, r', -, hpair⟩)
    · obtain ⟨hmem, hcases⟩ := tagAt_eq_some.1 (loadsTag_iff.1 hload)
      refine ⟨hmem, hcases.imp_right ?_⟩
      rintro ⟨r, r', -, hpair⟩
      exact ⟨r, r', nofun, hpair⟩
    · exact ⟨hmem, .inr ⟨r, r', nofun, hpair⟩⟩
  · rintro ⟨hmem, ⟨r, imm, hw, hval⟩ | ⟨r, r', -, hpair⟩⟩
    · exact .inl (.li hmem hw hval)
    · by_cases hr : r = r'
      · subst hr
        exact .inl (.pair hmem hpair)
      · exact .inr ⟨hmem, r, r', hr, hpair⟩

end

/-! ## The last load before a trap -/

/-- The window of the trap at `k` ends before it. -/
theorem window_end (k : ℕ) : k - tagScanWindow + (k - (k - tagScanWindow)) = k := by omega

section
variable {bytes : List UInt8} {k : ℕ}

/-- What the last load in the window loads. -/
theorem lastLoad_iff {tag : TrapTag} :
    lastSome (tagAt true bytes) (k - tagScanWindow) (k - (k - tagScanWindow)) = some tag ↔
      ∃ i, LastIn (fun i => ∃ t, LoadsTag bytes i t) (k - tagScanWindow) k i ∧
        LoadsTag bytes i tag := by
  have hload : ∀ i, tagAt true bytes i ≠ none ↔ ∃ t, LoadsTag bytes i t := by
    intro i
    simp only [Option.ne_none_iff_exists', loadsTag_iff]
  rw [lastSome_eq_some, window_end]
  refine exists_congr fun i => ?_
  rw [LastIn.congr hload, loadsTag_iff]

theorem tagRight_iff {found : Option TrapTag} :
    TagRight bytes k found ↔
      found = lastSome (tagAt true bytes) (k - tagScanWindow) (k - (k - tagScanWindow)) := by
  unfold TagRight
  simp only [← lastLoad_iff]
  constructor
  · exact fun h => Option.ext h
  · rintro rfl tag
    exact Iff.rfl

/-- **Where the scan finds the right tag**: if the last load it sees is a pair in two
    registers, the last load has the same tag. -/
theorem seen_eq_loaded_iff :
    lastSome (tagAt false bytes) (k - tagScanWindow) (k - (k - tagScanWindow)) =
        lastSome (tagAt true bytes) (k - tagScanWindow) (k - (k - tagScanWindow)) ↔
      ∀ i tag,
        LastIn (fun i => ∃ t, LoadsTag bytes i t ∨ MixedPair bytes i t) (k - tagScanWindow) k i →
        MixedPair bytes i tag →
        ∃ j, LastIn (fun j => ∃ t, LoadsTag bytes j t) (k - tagScanWindow) k j ∧
          LoadsTag bytes j tag := by
  have hseen : ∀ i, tagAt false bytes i ≠ none ↔ ∃ t, LoadsTag bytes i t ∨ MixedPair bytes i t := by
    intro i
    simp only [Option.ne_none_iff_exists', seenTag_iff]
  have hmore : ∀ i tag, tagAt true bytes i = some tag → tagAt false bytes i = some tag := by
    intro i tag h
    exact seenTag_iff.1 (.inl (loadsTag_iff.2 h))
  rw [lastSome_eq_iff hmore, window_end]
  refine forall_congr' fun i => forall_congr' fun tag => ?_
  rw [LastIn.congr hseen, lastLoad_iff, ← seenTag_iff]
  constructor
  · intro h hlast hmixed
    refine h hlast (.inr hmixed) (Option.eq_none_iff_forall_ne_some.2 fun t ht => ?_)
    exact hmixed.not_loadsTag (loadsTag_iff.2 ht)
  · intro h hlast hor hnone
    refine h hlast (hor.resolve_left ?_)
    intro hload
    rw [loadsTag_iff.1 hload] at hnone
    cases hnone

end

/-! ## The hits -/

/-- The hit of the trap at `k`. -/
def hitAt (bytes : List UInt8) (containerOffset k : ℕ) : TrapHit where
  codeOffset := 4 * k
  containerOffset := containerOffset + 4 * k
  tag := lastSome (tagAt false bytes) (k - tagScanWindow) (k - (k - tagScanWindow))
  nextWord := (codeWord bytes (k + 1)).getD 0
  nextDecode := decode ((codeWord bytes (k + 1)).getD 0)

section
variable {bytes : List UInt8} {off : ℕ}

theorem codeWord_of_lt {k : ℕ} (h : k < bytes.length / 4) :
    codeWord bytes k = some (wordAt bytes (4 * k)) := if_pos (by omega)

theorem lt_of_codeWord {k : ℕ} {w : UInt32} (h : codeWord bytes k = some w) :
    k < bytes.length / 4 := by
  unfold codeWord at h
  split_ifs at h
  omega

theorem scanWord_eq (h : off + bytes.length < wordSize) (hits : List TrapHit) {k : ℕ}
    (hk : k < bytes.length / 4) :
    scanWord bytes off hits k =
      .ok (if codeWord bytes k = some trapWord then hits ++ [hitAt bytes off k] else hits) := by
  have hnext : (if k + 1 < bytes.length / 4 then u32At bytes (4 * (k + 1)) else .ok 0 :
      Outcome Empty UInt32) = .ok ((codeWord bytes (k + 1)).getD 0) := by
    split_ifs with hlt
    · rw [u32At_eq (by omega), codeWord_of_lt hlt, Option.getD_some]
    · have hnone : codeWord bytes (k + 1) = none := if_neg (by omega)
      rw [hnone, Option.getD_none]
  unfold scanWord
  rw [u32At_eq (by omega), ok_bind, codeWord_of_lt hk]
  simp only [Option.some_inj]
  by_cases htrap : wordAt bytes (4 * k) = trapWord
  · rw [if_pos htrap, if_pos htrap, hnext, ok_bind, identifyTag_eq (by omega), ok_bind,
      word_eq (by omega), ok_bind]
    rfl
  · rw [if_neg htrap, if_neg htrap]

/-- **The hits**, one for each trap word. -/
theorem scanSection_eq (h : off + bytes.length < wordSize) :
    scanSection bytes off =
      .ok (((List.range (bytes.length / 4)).filter (codeWord bytes · = some trapWord)).map
        (hitAt bytes off)) := by
  have hfold : ∀ l : List ℕ, (∀ k ∈ l, k < bytes.length / 4) → ∀ hits,
      foldl (scanWord bytes off) l hits =
        .ok (hits ++ (l.filter (codeWord bytes · = some trapWord)).map (hitAt bytes off)) := by
    intro l hl
    induction l with
    | nil =>
      intro hits
      simp [foldl]
    | cons k l ih =>
      intro hits
      obtain ⟨hk, hl⟩ := List.forall_mem_cons.1 hl
      rw [foldl, scanWord_eq h hits hk, ok_bind, ih hl, List.filter_cons]
      by_cases htrap : codeWord bytes k = some trapWord
      · simp [htrap]
      · simp [htrap]
  exact hfold _ (fun k => List.mem_range.1) []

theorem trapsReported (bytes : List UInt8) (off : ℕ) :
    TrapsReported bytes
      (((List.range (bytes.length / 4)).filter (codeWord bytes · = some trapWord)).map
        (hitAt bytes off)) := by
  refine ⟨?_, ?_⟩
  · rw [List.map_map, List.pairwise_map]
    refine (List.pairwise_lt_range.filter _).imp ?_
    intro a b hab
    show 4 * a < 4 * b
    omega
  · intro o
    rw [List.map_map]
    simp only [List.mem_map, List.mem_filter, List.mem_range, decide_eq_true_eq]
    constructor
    · rintro ⟨k, ⟨-, hk⟩, rfl⟩
      exact ⟨k, rfl, hk⟩
    · rintro ⟨k, rfl, hk⟩
      exact ⟨k, ⟨lt_of_codeWord hk, hk⟩, rfl⟩

/-- **The scan reports exactly the traps**, in order.  The tags are right if and only if the
    pairs in two registers do no harm. -/
theorem scanSection_tags_iff (bytes : List UInt8) (off : ℕ) (h : off + bytes.length < wordSize) :
    ∃ hits, scanSection bytes off = .ok hits ∧ TrapsReported bytes hits ∧
      ((∀ hit ∈ hits, TagRight bytes (hit.codeOffset / 4) hit.tag) ↔ PairsHarmless bytes) := by
  refine ⟨_, scanSection_eq h, trapsReported bytes off, ?_⟩
  have hindex : ∀ k, (hitAt bytes off k).codeOffset / 4 = k := fun k => Nat.mul_div_cancel_left k (by decide)
  simp only [List.forall_mem_map, List.mem_filter, List.mem_range, decide_eq_true_eq, hindex,
    tagRight_iff]
  constructor
  · intro hright k hk
    exact seen_eq_loaded_iff.1 (hright k ⟨lt_of_codeWord hk, hk⟩)
  · rintro hharmless k ⟨-, hk⟩
    exact seen_eq_loaded_iff.2 (hharmless k hk)

end

/-- `li r5,0x203`, `nop`, a trap and `mflr r0`. -/
def loadedCode : List UInt8 :=
  [liWord 5 0x203, 0x60000000, trapWord, 0x7C0802A6].flatMap u32ToBe

theorem scanSection_tags_iff_loaded :
    ∃ hits, scanSection loadedCode 0x280 = .ok hits ∧ TrapsReported loadedCode hits ∧
      ((∀ hit ∈ hits, TagRight loadedCode (hit.codeOffset / 4) hit.tag) ↔
        PairsHarmless loadedCode) :=
  scanSection_tags_iff loadedCode 0x280 (by decide)

/-- `lis r3,0`, `ori r4,r4,0x203` and a trap. -/
def mixedCode : List UInt8 := [lisWord 3 0, oriWord 4 0x203, trapWord].flatMap u32ToBe

/-- **A tag that no register holds** is reported. -/
theorem not_scanSection_tags :
    ¬∃ hits, scanSection mixedCode 0 = .ok hits ∧ TrapsReported mixedCode hits ∧
      ∀ hit ∈ hits, TagRight mixedCode (hit.codeOffset / 4) hit.tag := by
  rintro ⟨hits, hscan, -, htags⟩
  rw [scanSection_eq (show 0 + mixedCode.length < wordSize by decide)] at hscan
  cases hscan
  have hmem : hitAt mixedCode 0 2 ∈
      ((List.range (mixedCode.length / 4)).filter (codeWord mixedCode · = some trapWord)).map
        (hitAt mixedCode 0) := List.mem_map_of_mem (by decide +kernel)
  have hright := tagRight_iff.1 (htags _ hmem)
  revert hright
  decide +kernel

end Usbmidi9
