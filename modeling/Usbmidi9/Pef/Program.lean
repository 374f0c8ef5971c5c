/-
  USBMIDI9 — relocation programs, as `spec/pefcheck-reloc/tasks.md` describes them.

  A program is a sequence of instructions of one or two 16-bit chunks.
  `RelocWords` is an instruction as it is written and `RelocWords.meaning` what it
  asks for, if its opcode is defined, it is no repeat and its sub-opcode is one of
  the tables.  `RelocInstr.apply` is the effect on the section that is relocated.

  A word that lies outside the decoded content cannot be written, and a section that
  does not exist has no base: `gaps` collects these, and the replay goes on.
-/
import Usbmidi9.Pef.Bytes

namespace Usbmidi9

/-! ## Opcodes -/

/-- The opcode map. -/
inductive RelocOpcode where
  | bySectDWithSkip
  | valueGroup
  | byIndexGroup
  | incrPosition
  | smRepeat
  | lgByImport
  | setPosition
  | lgRepeat
  | lgSetOrBySection
  | undefined_
deriving DecidableEq, Repr

/-- The opcode in the high bits of a first chunk. -/
def relocOpcode (v : ℕ) : RelocOpcode :=
  if v &&& 0xc000 = 0 then .bySectDWithSkip
  else if (v &&& 0xe000) >>> 13 = 0x2 then .valueGroup
  else if (v &&& 0xe000) >>> 13 = 0x3 then .byIndexGroup
  else if (v &&& 0xf000) >>> 12 = 0x8 then .incrPosition
  else if (v &&& 0xf000) >>> 12 = 0x9 then .smRepeat
  else if (v &&& 0xfc00) >>> 10 = 0x29 then .lgByImport
  else if (v &&& 0xfc00) >>> 10 = 0x28 then .setPosition
  else if (v &&& 0xfc00) >>> 10 = 0x2c then .lgRepeat
  else if (v &&& 0xfc00) >>> 10 = 0x2d then .lgSetOrBySection
  else .undefined_

/-- The opcodes with a second chunk. -/
def RelocOpcode.long : RelocOpcode → Bool
  | lgByImport | setPosition | lgRepeat | lgSetOrBySection => true
  | _ => false

/-- The opcodes that are repeats. -/
def RelocOpcode.isRepeat : RelocOpcode → Bool
  | smRepeat | lgRepeat => true
  | _ => false

/-! ## Instructions -/

/-- What an instruction asks for. -/
inductive RelocInstr where
  | bySectDWithSkip (skip n : ℕ)
  | bySectC (run : ℕ)
  | bySectD (run : ℕ)
  | tvector12 (run : ℕ)
  | tvector8 (run : ℕ)
  | vtable8 (run : ℕ)
  | importRun (run : ℕ)
  | byImport (idx : ℕ)
  | setSectC (idx : ℕ)
  | setSectD (idx : ℕ)
  | bySection (idx : ℕ)
  | incrPosition (off : ℕ)
  | setPosition (off : ℕ)

/-- An instruction as it is written. -/
structure RelocWords where
  first : UInt16
  second : Option UInt16
  long_iff : second.isSome = (relocOpcode first.toNat).long

namespace RelocWords
variable (w : RelocWords)

def chunks : List UInt16 := w.first :: w.second.toList

def opcode : RelocOpcode := relocOpcode w.first.toNat

/-- The second chunk. -/
def next : ℕ := (w.second.getD 0).toNat

def meaning : Option RelocInstr :=
  let v := w.first.toNat
  let run := (v &&& 0x01ff) + 1
  let idx := v &&& 0x01ff
  let off := ((v &&& 0x03ff) <<< 16) ||| w.next
  let lgIdx := ((v &&& 0x003f) <<< 16) ||| w.next
  match w.opcode with
  | .bySectDWithSkip => some (.bySectDWithSkip ((v &&& 0x3fc0) >>> 6) (v &&& 0x3f))
  | .valueGroup =>
    match (v &&& 0x1e00) >>> 9 with
    | 0 => some (.bySectC run)
    | 1 => some (.bySectD run)
    | 2 => some (.tvector12 run)
    | 3 => some (.tvector8 run)
    | 4 => some (.vtable8 run)
    | 5 => some (.importRun run)
    | _ => none
  | .byIndexGroup =>
    match (v &&& 0x1e00) >>> 9 with
    | 0 => some (.byImport idx)
    | 1 => some (.setSectC idx)
    | 2 => some (.setSectD idx)
    | 3 => some (.bySection idx)
    | _ => none
  | .incrPosition => some (.incrPosition ((v &&& 0x0fff) + 1))
  | .setPosition => some (.setPosition off)
  | .lgByImport => some (.byImport off)
  | .lgSetOrBySection =>
    match (v &&& 0x03c0) >>> 6 with
    | 0 => some (.bySection lgIdx)
    | 1 => some (.setSectC lgIdx)
    | 2 => some (.setSectD lgIdx)
    | _ => none
  | .smRepeat | .lgRepeat | .undefined_ => none

/-- The opcode is defined and no repeat. -/
def Replayable : Prop := w.opcode ≠ .undefined_ ∧ w.opcode.isRepeat = false

/-- The sub-opcode, if there is one, is in its table. -/
def Supported : Prop := w.meaning.isSome = true

instance (w : RelocWords) : Decidable w.Supported := inferInstanceAs (Decidable (_ = true))

theorem Supported.replayable {w : RelocWords} (h : w.Supported) : w.Replayable := by
  unfold Supported meaning at h
  unfold Replayable
  cases hop : w.opcode <;> simp_all [RelocOpcode.isRepeat]

end RelocWords

/-- A program of whole instructions that ask for `is`. -/
def RelocProgram (chunks : List UInt16) (is : List RelocInstr) : Prop :=
  ∃ ws : List RelocWords, chunks = ws.flatMap RelocWords.chunks ∧
    ws.map RelocWords.meaning = is.map some

/-! ## Effects -/

/-- An imported symbol whose address is not known. -/
structure ImportFixup where
  offset : ℕ
  symbol : List Char
deriving DecidableEq, Repr

/-- What cannot be relocated. -/
inductive RelocGap where
  /-- the word at `pos` is not decoded -/
  | outside (pos len : ℕ)
  /-- there is no section `idx` -/
  | noSection (idx : ℕ)
deriving DecidableEq, Repr

/-- The section that is relocated, and the loader's state. -/
structure RelocView where
  content : List UInt8
  position : ℕ
  sectC : UInt32
  sectD : UInt32
  importIndex : ℕ
  fixups : List ImportFixup
  gaps : List RelocGap

namespace RelocView
variable (bases : List UInt32) (names : List (List Char)) (t : RelocView)

/-- Add a base to the word at the position. -/
def write (base : UInt32) : RelocView :=
  if t.position + 4 ≤ t.content.length then
    { t with
      content := setWord t.content t.position (wordAt t.content t.position + base)
      position := t.position + 4 }
  else
    { t with
      gaps := t.gaps ++ [.outside t.position t.content.length]
      position := t.position + 4 }

@[simp] theorem write_sectD (base : UInt32) : (t.write base).sectD = t.sectD := by
  unfold write
  split_ifs <;> rfl

/-- The position moves on. -/
def skip (n : ℕ) : RelocView := { t with position := t.position + n }

/-- The word at the position is an import's. -/
def import_ (idx : ℕ) : RelocView :=
  { t with
    fixups := t.fixups ++ [⟨t.position, (names[idx]?).getD s!"<import {idx}>".toList⟩]
    position := t.position + 4
    importIndex := idx + 1 }

/-- The base of a section. -/
def baseOf (idx : ℕ) : UInt32 × RelocView :=
  match bases[idx]? with
  | some base => (base, t)
  | none => (0, { t with gaps := t.gaps ++ [.noSection idx] })

end RelocView

/-- **The effect of an instruction.** -/
def RelocInstr.apply (bases : List UInt32) (names : List (List Char)) (t : RelocView) :
    RelocInstr → RelocView
  | bySectDWithSkip skip n => (fun t => t.write t.sectD)^[n] (t.skip (skip * 4))
  | bySectC run => (fun t => t.write t.sectC)^[run] t
  | bySectD run => (fun t => t.write t.sectD)^[run] t
  | tvector12 run => (fun t => ((t.write t.sectC).write t.sectD).skip 4)^[run] t
  | tvector8 run => (fun t => (t.write t.sectC).write t.sectD)^[run] t
  | vtable8 run => (fun t => (t.write t.sectD).skip 4)^[run] t
  | importRun run => (fun t => t.import_ names t.importIndex)^[run] t
  | byImport idx => t.import_ names idx
  | setSectC idx => { (t.baseOf bases idx).2 with sectC := (t.baseOf bases idx).1 }
  | setSectD idx => { (t.baseOf bases idx).2 with sectD := (t.baseOf bases idx).1 }
  | bySection idx => (t.baseOf bases idx).2.write (t.baseOf bases idx).1
  | incrPosition off => t.skip off
  | setPosition off => { t with position := off }

/-- **The effect of a program.** -/
def RelocInstr.applyAll (bases : List UInt32) (names : List (List Char)) (is : List RelocInstr)
    (t : RelocView) : RelocView :=
  is.foldl (RelocInstr.apply bases names) t

/-- The beginning: sections 0 and 1, if they are there. -/
def RelocView.start (bases : List UInt32) (content : List UInt8) (fixups : List ImportFixup) :
    RelocView :=
  { content, position := 0, sectC := (bases[0]?).getD 0, sectD := (bases[1]?).getD 0,
    importIndex := 0, fixups, gaps := [] }

end Usbmidi9
