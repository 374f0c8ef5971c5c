/-
  USBMIDI9 — the executor of relocation programs (`apply_program` in
  `pefcheck/src/reloc.rs`).

  `relocLoop` runs over the chunks that are left.  A two-chunk instruction whose
  second chunk is missing leaves `i` behind the end, so that the replay is not
  complete.

  `applyProgram_safe` bounds the position, and `applyProgram_replays` says what a
  complete replay of a program with supported instructions has done: what
  `RelocInstr.applyAll` says.
-/
import Usbmidi9.Pef.Program

namespace Usbmidi9

open Outcome

/-! ## The executor -/

/-- The variables of `apply_program`, with what it changes. -/
structure RelocState where
  content : List UInt8
  addr : ℕ
  sectC : UInt32
  sectD : UInt32
  imp : ℕ
  fixups : List ImportFixup
  notes : List String
  complete : Bool

section
variable (bases : List UInt32) (names : List (List Char)) (s : RelocState)

/-- `notes.push`. -/
def RelocState.note (msg : String) : RelocState := { s with notes := s.notes ++ [msg] }

/-- `addr += n`. -/
def advance (n : ℕ) : Outcome Empty RelocState := do
  let addr ← word (s.addr + n)
  .ok { s with addr }

/-- `add_word`. -/
def addWord (val : UInt32) : Outcome Empty RelocState := do
  let e ← word (s.addr + 4)
  let s ← (if e ≤ s.content.length then do
      let cur ← u32At s.content s.addr
      .ok { s with content := setWord s.content s.addr (cur + val) }
    else
      .ok (s.note s!"relocation write at offset 0x{hexString s.addr} beyond decoded content (len 0x{hexString s.content.length})") :
    Outcome Empty RelocState)
  advance s 4

/-- `base_of`. -/
def baseOf (idx : ℕ) : UInt32 × RelocState :=
  match bases[idx]? with
  | some base => (base, s)
  | none => (0, s.note s!"section index {idx} out of range for base")

/-- `record_import`. -/
def recordImport (idx : ℕ) : RelocState :=
  { s with fixups := s.fixups ++ [⟨s.addr, (names[idx]?).getD s!"<import {idx}>".toList⟩] }

/-- An import that is named: the next one is the one behind it. -/
def byImport (idx : ℕ) : Outcome Empty RelocState := do
  let s ← advance (recordImport names s idx) 4
  let imp ← word (idx + 1)
  .ok { s with imp }

/-- `RelocValueGroup`. -/
def valueGroup (v : ℕ) : Outcome Empty RelocState :=
  let sub := (v &&& 0x1e00) >>> 9
  let run := (v &&& 0x01ff) + 1
  match sub with
  | 0 => iterate (fun s => addWord s s.sectC) run s
  | 1 => iterate (fun s => addWord s s.sectD) run s
  | 2 =>
    iterate (fun s => do
      let s ← addWord s s.sectC
      let s ← addWord s s.sectD
      advance s 4) run s
  | 3 =>
    iterate (fun s => do
      let s ← addWord s s.sectC
      addWord s s.sectD) run s
  | 4 =>
    iterate (fun s => do
      let s ← addWord s s.sectD
      advance s 4) run s
  | 5 => iterate (fun s => byImport names s s.imp) run s
  | sub => .ok (s.note s!"unsupported RelocValueGroup subopcode {sub}")

/-- `RelocByIndexGroup`. -/
def byIndexGroup (v : ℕ) : Outcome Empty RelocState :=
  let sub := (v &&& 0x1e00) >>> 9
  let idx := v &&& 0x01ff
  match sub with
  | 0 => byImport names s idx
  | 1 => .ok { (baseOf bases s idx).2 with sectC := (baseOf bases s idx).1 }
  | 2 => .ok { (baseOf bases s idx).2 with sectD := (baseOf bases s idx).1 }
  | 3 => addWord (baseOf bases s idx).2 (baseOf bases s idx).1
  | sub => .ok (s.note s!"unsupported RelocByIndexGroup subopcode {sub}")

/-- `RelocLgSetOrBySection`. -/
def lgSetOrBySection (v next : ℕ) : Outcome Empty RelocState :=
  let sub := (v &&& 0x03c0) >>> 6
  let idx := ((v &&& 0x003f) <<< 16) ||| next
  match sub with
  | 0 => addWord (baseOf bases s idx).2 (baseOf bases s idx).1
  | 1 => .ok { (baseOf bases s idx).2 with sectC := (baseOf bases s idx).1 }
  | 2 => .ok { (baseOf bases s idx).2 with sectD := (baseOf bases s idx).1 }
  | sub => .ok (s.note s!"unsupported RelocLgSetOrBySection subopcode {sub}")

/-- One instruction, with its second chunk. -/
def applyInstr (ch : UInt16) (next : ℕ) : Outcome Empty RelocState :=
  let v := ch.toNat
  match relocOpcode v with
  | .bySectDWithSkip => do
    let s ← advance s (((v &&& 0x3fc0) >>> 6) * 4)
    iterate (fun s => addWord s s.sectD) (v &&& 0x3f) s
  | .valueGroup => valueGroup names s v
  | .byIndexGroup => byIndexGroup bases names s v
  | .incrPosition => advance s ((v &&& 0x0fff) + 1)
  | .smRepeat =>
    let chunks := ((v &&& 0x0f00) >>> 8) + 1
    let times := (v &&& 0x00ff) + 1
    .ok { s.note s!"RelocSmRepeat (repeat {chunks} chunks, {times} times) not replayed; not used by the project fixtures" with
      complete := false }
  | .lgByImport => byImport names s (((v &&& 0x03ff) <<< 16) ||| next)
  | .setPosition => .ok { s with addr := ((v &&& 0x03ff) <<< 16) ||| next }
  | .lgRepeat =>
    let chunks := ((v &&& 0x03c0) >>> 6) + 1
    let times := ((v &&& 0x003f) <<< 16) ||| next
    .ok { s.note s!"RelocLgRepeat (repeat {chunks} chunks, {times} times) not replayed; not used by the project fixtures" with
      complete := false }
  | .lgSetOrBySection => lgSetOrBySection bases s v next
  | .undefined_ =>
    .ok { s.note s!"undefined relocation opcode 0x{hexPadded 4 v}" with complete := false }

/-- The loop, over the chunks from `i` on. -/
def relocLoop : List UInt16 → RelocState → Outcome Empty (Bool × RelocState)
  | [], s => .ok (s.complete, s)
  | ch :: rest, s =>
    if (relocOpcode ch.toNat).long then
      match rest with
      | [] => do
        let s ← applyInstr bases names s ch 0
        .ok (false, s)
      | next :: rest => do
        let s ← applyInstr bases names s ch next.toNat
        relocLoop rest s
    else do
      let s ← applyInstr bases names s ch 0
      relocLoop rest s

end

/-- `apply_program`. -/
def applyProgram (chunks : List UInt16) (bases : List UInt32) (names : List (List Char))
    (content : List UInt8) (fixups : List ImportFixup) (notes : List String) :
    Outcome Empty (Bool × RelocState) :=
  relocLoop bases names chunks
    { content, addr := 0, sectC := (bases[0]?).getD 0, sectD := (bases[1]?).getD 0, imp := 0,
      fixups, notes, complete := true }

/-! ## What a replay does -/

/-- How a gap is noted. -/
def RelocGap.note : RelocGap → String
  | outside pos len =>
    s!"relocation write at offset 0x{hexString pos} beyond decoded content (len 0x{hexString len})"
  | noSection idx => s!"section index {idx} out of range for base"

/-- The executor is where the program has led, after the notes `before`. -/
structure Replays (before : List String) (complete : Bool) (s : RelocState) (t : RelocView) :
    Prop where
  content : s.content = t.content
  position : s.addr = t.position
  sectC : s.sectC = t.sectC
  sectD : s.sectD = t.sectD
  importIndex : s.imp = t.importIndex
  fixups : s.fixups = t.fixups
  notes : s.notes = before ++ t.gaps.map RelocGap.note
  complete_eq : s.complete = complete

theorem advance_eq_ok {s s' : RelocState} {n : ℕ} :
    advance s n = .ok s' ↔ s.addr + n < wordSize ∧ s' = { s with addr := s.addr + n } := by
  simp only [advance, bind_eq_ok, word_eq_ok, ok.injEq]
  constructor
  · rintro ⟨_, ⟨h, rfl⟩, rfl⟩
    exact ⟨h, rfl⟩
  · rintro ⟨h, rfl⟩
    exact ⟨_, ⟨h, rfl⟩, rfl⟩

namespace Replays
variable {bases : List UInt32} {names : List (List Char)} {before : List String} {complete : Bool}
  {s s' : RelocState} {t : RelocView} (h : Replays before complete s t)
include h

/-- A note for a gap. -/
theorem gap (g : RelocGap) :
    Replays before complete (s.note g.note) { t with gaps := t.gaps ++ [g] } where
  content := h.content
  position := h.position
  sectC := h.sectC
  sectD := h.sectD
  importIndex := h.importIndex
  fixups := h.fixups
  notes := by
    rw [List.map_append, ← List.append_assoc, ← h.notes]
    rfl
  complete_eq := h.complete_eq

theorem advance {n : ℕ} (hs : advance s n = .ok s') : Replays before complete s' (t.skip n) := by
  obtain ⟨-, rfl⟩ := advance_eq_ok.1 hs
  exact { h with position := congrArg (· + n) h.position }

theorem addWord {val : UInt32} (hs : addWord s val = .ok s') :
    Replays before complete s' (t.write val) := by
  obtain ⟨e, hword, hs⟩ := bind_eq_ok.1 hs
  obtain ⟨-, rfl⟩ := word_eq_ok.1 hword
  obtain ⟨s₁, hs₁, hs⟩ := bind_eq_ok.1 hs
  unfold RelocView.write
  split_ifs at hs₁ with hfits
  · rw [u32At_eq hfits, ok_bind] at hs₁
    obtain rfl := ok.inj hs₁
    rw [if_pos (by rwa [← h.position, ← h.content])]
    have hwritten : Replays before complete
        { s with content := setWord s.content s.addr (wordAt s.content s.addr + val) }
        { t with content := setWord t.content t.position (wordAt t.content t.position + val) } :=
      { h with content := by rw [h.content, h.position] }
    exact hwritten.advance hs
  · obtain rfl := ok.inj hs₁
    rw [if_neg (by rwa [← h.position, ← h.content])]
    have hnoted := h.gap (.outside s.addr s.content.length)
    rw [h.position, h.content] at hnoted
    exact Replays.advance hnoted (by rwa [← h.position, ← h.content])

/-- The base of a section, in both. -/
theorem baseOf (bases : List UInt32) (idx : ℕ) :
    (baseOf bases s idx).1 = (t.baseOf bases idx).1 ∧
      Replays before complete (baseOf bases s idx).2 (t.baseOf bases idx).2 := by
  unfold Usbmidi9.baseOf RelocView.baseOf
  cases bases[idx]? with
  | some base => exact ⟨rfl, h⟩
  | none => exact ⟨rfl, h.gap (.noSection idx)⟩

theorem bySection {idx : ℕ}
    (hs : Usbmidi9.addWord (Usbmidi9.baseOf bases s idx).2 (Usbmidi9.baseOf bases s idx).1 =
      .ok s') :
    Replays before complete s' ((RelocInstr.bySection idx).apply bases names t) := by
  obtain ⟨hbase, hstate⟩ := h.baseOf bases idx
  rw [hbase] at hs
  exact hstate.addWord hs

theorem setSectC {idx : ℕ} :
    Replays before complete
      { (Usbmidi9.baseOf bases s idx).2 with sectC := (Usbmidi9.baseOf bases s idx).1 }
      ((RelocInstr.setSectC idx).apply bases names t) := by
  obtain ⟨hbase, hstate⟩ := h.baseOf bases idx
  exact { hstate with sectC := hbase }

theorem setSectD {idx : ℕ} :
    Replays before complete
      { (Usbmidi9.baseOf bases s idx).2 with sectD := (Usbmidi9.baseOf bases s idx).1 }
      ((RelocInstr.setSectD idx).apply bases names t) := by
  obtain ⟨hbase, hstate⟩ := h.baseOf bases idx
  exact { hstate with sectD := hbase }

theorem byImport {idx : ℕ} (hs : byImport names s idx = .ok s') :
    Replays before complete s' (t.import_ names idx) := by
  obtain ⟨s₁, hs₁, hs⟩ := bind_eq_ok.1 hs
  obtain ⟨-, rfl⟩ := advance_eq_ok.1 hs₁
  obtain ⟨imp, himp, hs⟩ := bind_eq_ok.1 hs
  obtain ⟨-, rfl⟩ := word_eq_ok.1 himp
  obtain rfl := ok.inj hs
  exact { h with
    position := congrArg (· + 4) h.position
    importIndex := rfl
    fixups := by rw [recordImport, RelocView.import_, h.fixups, h.position] }

theorem addSectC (hs : Usbmidi9.addWord s s.sectC = .ok s') :
    Replays before complete s' (t.write t.sectC) := by
  rw [h.sectC] at hs
  exact h.addWord hs

theorem addSectD (hs : Usbmidi9.addWord s s.sectD = .ok s') :
    Replays before complete s' (t.write t.sectD) := by
  rw [h.sectD] at hs
  exact h.addWord hs

/-- An entry point and its section's data. -/
theorem addVector {s₁ : RelocState} (hs₁ : Usbmidi9.addWord s s.sectC = .ok s₁)
    (hs : Usbmidi9.addWord s₁ s₁.sectD = .ok s') :
    Replays before complete s' ((t.write t.sectC).write t.sectD) := by
  have hboth := (h.addSectC hs₁).addSectD hs
  rwa [RelocView.write_sectD] at hboth

theorem valueGroup {sub run : ℕ} {i : RelocInstr}
    (hm : (match sub with
      | 0 => some (.bySectC run)
      | 1 => some (.bySectD run)
      | 2 => some (.tvector12 run)
      | 3 => some (.tvector8 run)
      | 4 => some (.vtable8 run)
      | 5 => some (.importRun run)
      | _ => none) = some i) {v : ℕ} (hsub : (v &&& 0x1e00) >>> 9 = sub)
    (hrun : (v &&& 0x01ff) + 1 = run) (hs : valueGroup names s v = .ok s') :
    Replays before complete s' (i.apply bases names t) := by
  unfold Usbmidi9.valueGroup at hs
  dsimp only at hs
  rw [hsub, hrun] at hs
  match sub, hm, hs with
  | 0, hm, hs =>
    obtain rfl := Option.some.inj hm
    exact of_iterate_eq_ok (fun a a' b hI ha => hI.addSectC ha) h hs
  | 1, hm, hs =>
    obtain rfl := Option.some.inj hm
    exact of_iterate_eq_ok (fun a a' b hI ha => hI.addSectD ha) h hs
  | 2, hm, hs =>
    obtain rfl := Option.some.inj hm
    refine of_iterate_eq_ok (fun a a' b hI ha => ?_) h hs
    obtain ⟨a₁, ha₁, ha⟩ := bind_eq_ok.1 ha
    obtain ⟨a₂, ha₂, ha⟩ := bind_eq_ok.1 ha
    exact (hI.addVector ha₁ ha₂).advance ha
  | 3, hm, hs =>
    obtain rfl := Option.some.inj hm
    refine of_iterate_eq_ok (fun a a' b hI ha => ?_) h hs
    obtain ⟨a₁, ha₁, ha⟩ := bind_eq_ok.1 ha
    exact hI.addVector ha₁ ha
  | 4, hm, hs =>
    obtain rfl := Option.some.inj hm
    refine of_iterate_eq_ok (fun a a' b hI ha => ?_) h hs
    obtain ⟨a₁, ha₁, ha⟩ := bind_eq_ok.1 ha
    exact (hI.addSectD ha₁).advance ha
  | 5, hm, hs =>
    obtain rfl := Option.some.inj hm
    refine of_iterate_eq_ok (fun a a' b hI ha => ?_) h hs
    have himport := hI.byImport ha
    rwa [hI.importIndex] at himport
  | _ + 6, hm, _ => cases hm

theorem byIndexGroup {sub idx : ℕ} {i : RelocInstr}
    (hm : (match sub with
      | 0 => some (.byImport idx)
      | 1 => some (.setSectC idx)
      | 2 => some (.setSectD idx)
      | 3 => some (.bySection idx)
      | _ => none) = some i) {v : ℕ} (hsub : (v &&& 0x1e00) >>> 9 = sub)
    (hidx : v &&& 0x01ff = idx) (hs : byIndexGroup bases names s v = .ok s') :
    Replays before complete s' (i.apply bases names t) := by
  unfold Usbmidi9.byIndexGroup at hs
  dsimp only at hs
  rw [hsub, hidx] at hs
  match sub, hm, hs with
  | 0, hm, hs =>
    obtain rfl := Option.some.inj hm
    exact h.byImport hs
  | 1, hm, hs =>
    obtain rfl := Option.some.inj hm
    obtain rfl := ok.inj hs
    exact h.setSectC
  | 2, hm, hs =>
    obtain rfl := Option.some.inj hm
    obtain rfl := ok.inj hs
    exact h.setSectD
  | 3, hm, hs =>
    obtain rfl := Option.some.inj hm
    exact h.bySection hs
  | _ + 4, hm, _ => cases hm

theorem lgSetOrBySection {sub idx : ℕ} {i : RelocInstr}
    (hm : (match sub with
      | 0 => some (.bySection idx)
      | 1 => some (.setSectC idx)
      | 2 => some (.setSectD idx)
      | _ => none) = some i) {v next : ℕ} (hsub : (v &&& 0x03c0) >>> 6 = sub)
    (hidx : ((v &&& 0x003f) <<< 16) ||| next = idx)
    (hs : lgSetOrBySection bases s v next = .ok s') :
    Replays before complete s' (i.apply bases names t) := by
  unfold Usbmidi9.lgSetOrBySection at hs
  dsimp only at hs
  rw [hsub, hidx] at hs
  match sub, hm, hs with
  | 0, hm, hs =>
    obtain rfl := Option.some.inj hm
    exact h.bySection hs
  | 1, hm, hs =>
    obtain rfl := Option.some.inj hm
    obtain rfl := ok.inj hs
    exact h.setSectC
  | 2, hm, hs =>
    obtain rfl := Option.some.inj hm
    obtain rfl := ok.inj hs
    exact h.setSectD
  | _ + 3, hm, _ => cases hm

/-- **One instruction** has the effect that it asks for. -/
theorem instr {w : RelocWords} {i : RelocInstr} (hm : w.meaning = some i)
    (hs : applyInstr bases names s w.first w.next = .ok s') :
    Replays before complete s' (i.apply bases names t) := by
  unfold RelocWords.meaning RelocWords.opcode at hm
  unfold applyInstr at hs
  dsimp only at hm hs
  cases hop : relocOpcode w.first.toNat with
  | bySectDWithSkip =>
    rw [hop] at hm hs
    obtain rfl := Option.some.inj hm
    obtain ⟨s₁, hs₁, hs⟩ := bind_eq_ok.1 hs
    exact of_iterate_eq_ok (fun a a' b hI ha => hI.addSectD ha) (h.advance hs₁) hs
  | valueGroup =>
    rw [hop] at hm hs
    exact h.valueGroup hm rfl rfl hs
  | byIndexGroup =>
    rw [hop] at hm hs
    exact h.byIndexGroup hm rfl rfl hs
  | incrPosition =>
    rw [hop] at hm hs
    obtain rfl := Option.some.inj hm
    exact h.advance hs
  | lgByImport =>
    rw [hop] at hm hs
    obtain rfl := Option.some.inj hm
    exact h.byImport hs
  | setPosition =>
    rw [hop] at hm hs
    obtain rfl := Option.some.inj hm
    obtain rfl := ok.inj hs
    exact { h with position := rfl }
  | lgSetOrBySection =>
    rw [hop] at hm hs
    exact h.lgSetOrBySection hm rfl rfl hs
  | smRepeat | lgRepeat | undefined_ =>
    rw [hop] at hm
    cases hm

end Replays

section
variable {bases : List UInt32} {names : List (List Char)} {s s' : RelocState} {w : RelocWords}

/-- An unsupported sub-opcode is noted and no more. -/
theorem applyInstr_unsupported (hw : w.Replayable) (hm : w.meaning = none) :
    ∃ msg, applyInstr bases names s w.first w.next = .ok (s.note msg) := by
  unfold RelocWords.Replayable RelocWords.opcode at hw
  unfold RelocWords.meaning RelocWords.opcode at hm
  unfold applyInstr
  dsimp only at hm ⊢
  cases hop : relocOpcode w.first.toNat with
  | valueGroup =>
    rw [hop] at hm
    dsimp only at hm ⊢
    unfold valueGroup
    dsimp only
    generalize (w.first.toNat &&& 0x1e00) >>> 9 = sub at hm
    match sub, hm with
    | _ + 6, _ => exact ⟨_, rfl⟩
  | byIndexGroup =>
    rw [hop] at hm
    dsimp only at hm ⊢
    unfold byIndexGroup
    dsimp only
    generalize (w.first.toNat &&& 0x1e00) >>> 9 = sub at hm
    match sub, hm with
    | _ + 4, _ => exact ⟨_, rfl⟩
  | lgSetOrBySection =>
    rw [hop] at hm
    dsimp only at hm ⊢
    unfold lgSetOrBySection
    dsimp only
    generalize (w.first.toNat &&& 0x03c0) >>> 6 = sub at hm
    match sub, hm with
    | _ + 3, _ => exact ⟨_, rfl⟩
  | smRepeat | lgRepeat => exact absurd hw.2 (by rw [hop]; decide)
  | undefined_ => exact absurd hop hw.1
  | bySectDWithSkip | incrPosition | lgByImport | setPosition =>
    rw [hop] at hm
    cases hm

/-- A repeat or an undefined opcode makes the replay incomplete. -/
theorem applyInstr_not_replayable (hw : ¬ w.Replayable) :
    ∃ msg, applyInstr bases names s w.first w.next = .ok { s.note msg with complete := false } := by
  unfold RelocWords.Replayable RelocWords.opcode at hw
  unfold applyInstr
  dsimp only
  cases hop : relocOpcode w.first.toNat with
  | smRepeat | lgRepeat | undefined_ => exact ⟨_, rfl⟩
  | _ => exact absurd ⟨by rw [hop]; decide, by rw [hop]; rfl⟩ hw

/-- Every state has led somewhere. -/
theorem Replays.refl (s : RelocState) : Replays s.notes s.complete s
    ⟨s.content, s.addr, s.sectC, s.sectD, s.imp, s.fixups, []⟩ :=
  ⟨rfl, rfl, rfl, rfl, rfl, rfl, (List.append_nil _).symm, rfl⟩

theorem applyInstr_complete (hs : applyInstr bases names s w.first w.next = .ok s') :
    s'.complete = true ↔ s.complete = true ∧ w.Replayable := by
  by_cases hw : w.Replayable
  · simp only [hw, and_true]
    cases hm : w.meaning with
    | some i => rw [((Replays.refl s).instr hm hs).complete_eq]
    | none =>
      obtain ⟨msg, hnote⟩ := applyInstr_unsupported hw hm
      obtain rfl := ok.inj (hnote.symm.trans hs)
      rfl
  · obtain ⟨msg, hnote⟩ := applyInstr_not_replayable hw
    obtain rfl := ok.inj (hnote.symm.trans hs)
    simp [hw]

/-! ## No panic -/

/-- There is room for `k` more. -/
def RelocState.Room (s : RelocState) (k : ℕ) : Prop := s.addr + k ≤ isizeMax ∧ s.imp + k ≤ isizeMax

/-- The position and the import index are `k` further on at most. -/
def MovedBy (k : ℕ) (s s' : RelocState) : Prop := s'.addr ≤ s.addr + k ∧ s'.imp ≤ s.imp + k

theorem MovedBy.trans {j k : ℕ} {s s' s'' : RelocState} (h : MovedBy j s s') (h' : MovedBy k s' s'') :
    MovedBy (j + k) s s'' := by
  unfold MovedBy at h h' ⊢
  omega

section
variable {bases : List UInt32} {names : List (List Char)} {s : RelocState}

theorem advance_safe {n : ℕ} (h : s.addr + n ≤ isizeMax) : (advance s n).Safe (MovedBy n s) := by
  unfold advance
  rw [word_eq_of_le h, ok_bind]
  exact ⟨le_rfl, Nat.le_add_right _ _⟩

theorem addWord_safe {val : UInt32} (h : s.addr + 4 ≤ isizeMax) :
    (addWord s val).Safe (MovedBy 4 s) := by
  unfold addWord
  rw [word_eq_of_le h, ok_bind]
  split_ifs with hfits
  · rw [u32At_eq hfits, ok_bind, ok_bind]
    exact advance_safe h
  · rw [ok_bind]
    exact advance_safe h

theorem byImport_safe {idx : ℕ} (h : s.addr + 4 ≤ isizeMax) (hidx : idx + 1 ≤ isizeMax) :
    (byImport names s idx).Safe fun s' => s'.addr ≤ s.addr + 4 ∧ s'.imp = idx + 1 := by
  have hadvance : (advance (recordImport names s idx) 4).Safe _ := advance_safe h
  refine hadvance.bind fun s' hs' => ?_
  rw [word_eq_of_le hidx, ok_bind]
  exact ⟨hs'.1, rfl⟩

/-- Steps of at most `k`, `n` times. -/
theorem iterate_moved {f : RelocState → Outcome Empty RelocState} {k : ℕ}
    (hf : ∀ s, s.Room k → (f s).Safe (MovedBy k s)) {n : ℕ} (hroom : s.Room (n * k)) :
    (iterate f n s).Safe (MovedBy (n * k) s) := by
  refine Safe.iterate (I := fun j => MovedBy (j * k) s) ?_ ?_
  · intro j hj s' hs'
    have hmul : (j + 1) * k ≤ n * k := Nat.mul_le_mul_right _ hj
    rw [Nat.succ_mul] at hmul ⊢
    unfold RelocState.Room at hroom
    unfold MovedBy at hs'
    refine (hf s' ⟨by omega, by omega⟩).mono fun s'' hs'' => ?_
    exact MovedBy.trans hs' hs''
  · exact ⟨Nat.le_add_right _ _, Nat.le_add_right _ _⟩

theorem addVector_safe (h : s.addr + 8 ≤ isizeMax) :
    (addWord s s.sectC >>= fun s => addWord s s.sectD).Safe (MovedBy 8 s) := by
  refine (addWord_safe (by omega)).bind fun s₁ hs₁ => ?_
  have hfirst := hs₁.1
  exact (addWord_safe (by omega)).mono fun s₂ hs₂ => hs₁.trans hs₂

theorem valueGroup_safe {v : ℕ} (hroom : s.Room (512 * 12)) :
    (valueGroup names s v).Safe (MovedBy (512 * 12) s) := by
  have hrun : (v &&& 0x01ff) + 1 ≤ 512 := Nat.succ_le_succ Nat.and_le_right
  have hsteps : ∀ {f : RelocState → Outcome Empty RelocState} {k : ℕ}, k ≤ 12 →
      (∀ s, s.Room k → (f s).Safe (MovedBy k s)) →
      (iterate f ((v &&& 0x01ff) + 1) s).Safe (MovedBy (512 * 12) s) := by
    intro f k hk hf
    have hmul : ((v &&& 0x01ff) + 1) * k ≤ 512 * 12 := Nat.mul_le_mul hrun hk
    unfold RelocState.Room at hroom
    refine (iterate_moved hf ⟨by omega, by omega⟩).mono fun s' hs' => ?_
    unfold MovedBy at hs' ⊢
    omega
  unfold valueGroup
  dsimp only
  split
  · exact hsteps (by decide : 4 ≤ 12) fun s hs => addWord_safe hs.1
  · exact hsteps (by decide : 4 ≤ 12) fun s hs => addWord_safe hs.1
  · refine hsteps (by decide : 12 ≤ 12) fun s hs => ?_
    rw [← Outcome.bind_assoc]
    have hroom' := hs.1
    refine (addVector_safe (by omega)).bind fun s₁ hs₁ => ?_
    have hfirst := hs₁.1
    exact (advance_safe (by omega)).mono fun s₂ hs₂ => hs₁.trans hs₂
  · exact hsteps (by decide : 8 ≤ 12) fun s hs => addVector_safe hs.1
  · refine hsteps (by decide : 8 ≤ 12) fun s hs => ?_
    have hroom' := hs.1
    refine (addWord_safe (by omega)).bind fun s₁ hs₁ => ?_
    have hfirst := hs₁.1
    exact (advance_safe (by omega)).mono fun s₂ hs₂ => hs₁.trans hs₂
  · refine hsteps (by decide : 4 ≤ 12) fun s hs => ?_
    have hroom' := hs.2
    refine (byImport_safe hs.1 (by omega)).mono fun s' hs' => ?_
    exact ⟨hs'.1, by omega⟩
  · exact ⟨Nat.le_add_right _ _, Nat.le_add_right _ _⟩

/-- `base_of` moves nothing. -/
theorem baseOf_addr (bases : List UInt32) (s : RelocState) (idx : ℕ) :
    (baseOf bases s idx).2.addr = s.addr ∧ (baseOf bases s idx).2.imp = s.imp := by
  unfold baseOf
  cases bases[idx]? <;> exact ⟨rfl, rfl⟩

theorem bySection_safe {idx : ℕ} (h : s.addr + 4 ≤ isizeMax) :
    (addWord (baseOf bases s idx).2 (baseOf bases s idx).1).Safe (MovedBy 4 s) := by
  obtain ⟨haddr, himp⟩ := baseOf_addr bases s idx
  refine (addWord_safe (by rwa [haddr])).mono fun s' hs' => ?_
  unfold MovedBy at hs' ⊢
  rwa [haddr, himp] at hs'

/-- Two chunks make 26 bits. -/
theorem lgIndex_lt {v mask next : ℕ} (hmask : mask ≤ 0x03ff) (hnext : next < 2 ^ 16) :
    ((v &&& mask) <<< 16) ||| next < 2 ^ 26 := by
  refine Nat.or_lt_two_pow ?_ (hnext.trans (by decide))
  have hand : v &&& mask ≤ mask := Nat.and_le_right
  rw [Nat.shiftLeft_eq]
  omega

/-- **One instruction** moves the position by less than 8192 bytes, or sets it to 26 bits. -/
theorem applyInstr_safe {ch : UInt16} {next : ℕ} (hnext : next < 2 ^ 16) {B : ℕ}
    (hB : 2 ^ 26 ≤ B) (hmax : B + 2 ^ 13 ≤ isizeMax) (haddr : s.addr ≤ B) (himp : s.imp ≤ B) :
    (applyInstr bases names s ch next).Safe fun s' => s'.addr ≤ B + 2 ^ 13 ∧ s'.imp ≤ B + 2 ^ 13 := by
  have hmoved : ∀ {k : ℕ} {s' : RelocState}, k ≤ 2 ^ 13 → MovedBy k s s' →
      s'.addr ≤ B + 2 ^ 13 ∧ s'.imp ≤ B + 2 ^ 13 := by
    intro k s' hk hs'
    unfold MovedBy at hs'
    omega
  have hstay : s.addr ≤ B + 2 ^ 13 ∧ s.imp ≤ B + 2 ^ 13 := ⟨by omega, by omega⟩
  have himport : ∀ {idx : ℕ}, idx < 2 ^ 26 → (byImport names s idx).Safe fun s' =>
      s'.addr ≤ B + 2 ^ 13 ∧ s'.imp ≤ B + 2 ^ 13 := by
    intro idx hidx
    refine (byImport_safe (by omega) (by omega)).mono fun s' hs' => ?_
    omega
  have hsection : ∀ {idx : ℕ}, (addWord (baseOf bases s idx).2 (baseOf bases s idx).1).Safe
      fun s' => s'.addr ≤ B + 2 ^ 13 ∧ s'.imp ≤ B + 2 ^ 13 := by
    intro idx
    exact (bySection_safe (by omega)).mono fun s' hs' => hmoved (by decide) hs'
  have hset : ∀ {idx : ℕ}, (baseOf bases s idx).2.addr ≤ B + 2 ^ 13 ∧
      (baseOf bases s idx).2.imp ≤ B + 2 ^ 13 := by
    intro idx
    rw [(baseOf_addr bases s idx).1, (baseOf_addr bases s idx).2]
    exact hstay
  unfold applyInstr
  dsimp only
  cases relocOpcode ch.toNat with
  | bySectDWithSkip =>
    have hskip : (ch.toNat &&& 0x3fc0) >>> 6 ≤ 255 := by
      have hand : ch.toNat &&& 0x3fc0 ≤ 0x3fc0 := Nat.and_le_right
      rw [Nat.shiftRight_eq_div_pow]
      omega
    have hn : ch.toNat &&& 0x3f ≤ 63 := Nat.and_le_right
    refine (advance_safe (by omega)).bind fun s₁ hs₁ => ?_
    unfold MovedBy at hs₁
    refine (iterate_moved (fun s hs => addWord_safe hs.1) ⟨by omega, by omega⟩).mono fun s' hs' => ?_
    unfold MovedBy at hs'
    omega
  | valueGroup =>
    exact (valueGroup_safe ⟨by omega, by omega⟩).mono fun s' hs' => hmoved (by decide) hs'
  | byIndexGroup =>
    unfold byIndexGroup
    dsimp only
    split
    · have hand : ch.toNat &&& 0x01ff ≤ 0x01ff := Nat.and_le_right
      exact himport (by omega)
    · exact hset
    · exact hset
    · exact hsection
    · exact hstay
  | incrPosition =>
    have hand : ch.toNat &&& 0x0fff ≤ 0x0fff := Nat.and_le_right
    refine (advance_safe (by omega)).mono fun s' hs' => ?_
    exact hmoved (by omega) hs'
  | lgByImport => exact himport (lgIndex_lt (by decide) hnext)
  | setPosition =>
    have hlt : ((ch.toNat &&& 0x03ff) <<< 16) ||| next < 2 ^ 26 := lgIndex_lt (by decide) hnext
    exact ⟨by dsimp only; omega, hstay.2⟩
  | lgSetOrBySection =>
    unfold lgSetOrBySection
    dsimp only
    split
    · exact hsection
    · exact hset
    · exact hset
    · exact hstay
  | smRepeat | lgRepeat | undefined_ => exact hstay

/-- **No panic**, with fewer than 2⁴⁹ chunks. -/
theorem relocLoop_safe {chunks : List UInt16} {B : ℕ} (hB : 2 ^ 26 ≤ B)
    (hmax : B + chunks.length * 2 ^ 13 ≤ isizeMax) (haddr : s.addr ≤ B) (himp : s.imp ≤ B) :
    (relocLoop bases names chunks s).Safe fun _ => True := by
  fun_induction relocLoop bases names chunks s generalizing B with
  | case1 s => trivial
  | case2 ch s hlong =>
    rw [List.length_singleton] at hmax
    exact (applyInstr_safe (by decide) hB (by omega) haddr himp).bind fun _ _ => trivial
  | case3 ch s hlong next rest ih =>
    simp only [List.length_cons] at hmax
    refine (applyInstr_safe next.toNat_lt hB (by omega) haddr himp).bind fun s' hs' => ?_
    exact ih s' (by omega) (by omega) hs'.1 hs'.2
  | case4 ch rest s hshort ih =>
    rw [List.length_cons] at hmax
    refine (applyInstr_safe (by decide) hB (by omega) haddr himp).bind fun s' hs' => ?_
    exact ih s' (by omega) (by omega) hs'.1 hs'.2

theorem applyProgram_safe {chunks : List UInt16} (h : chunks.length < 2 ^ 49)
    {content : List UInt8} {fixups : List ImportFixup} {notes : List String} :
    (applyProgram chunks bases names content fixups notes).Safe fun _ => True := by
  have hmax := isizeMax_eq
  exact relocLoop_safe le_rfl (by omega) (Nat.zero_le _) (Nat.zero_le _)

end

/-! ## Whole programs -/

/-- One instruction after the other. -/
def runWords (bases : List UInt32) (names : List (List Char)) :
    List RelocWords → RelocState → Outcome Empty RelocState :=
  foldl fun s w => applyInstr bases names s w.first w.next

theorem relocLoop_words {ws : List RelocWords} :
    relocLoop bases names (ws.flatMap RelocWords.chunks) s =
      runWords bases names ws s >>= fun s => .ok (s.complete, s) := by
  induction ws generalizing s with
  | nil => rfl
  | cons w ws ih =>
    rw [List.flatMap_cons, RelocWords.chunks, runWords, foldl, bind_assoc]
    have hlong := w.long_iff
    cases hsecond : w.second with
    | none =>
      rw [hsecond] at hlong
      have hnext : w.next = 0 := by rw [RelocWords.next, hsecond]; rfl
      rw [Option.toList_none, List.singleton_append, relocLoop.eq_def]
      dsimp only
      rw [if_neg (by rw [← hlong]; decide), hnext]
      refine congrArg _ (funext fun s => ?_)
      exact ih
    | some n =>
      rw [hsecond] at hlong
      have hnext : w.next = n.toNat := by rw [RelocWords.next, hsecond]; rfl
      rw [Option.toList_some, List.cons_append, List.singleton_append, relocLoop.eq_def]
      dsimp only
      rw [if_pos (by rw [← hlong]; rfl), hnext]
      refine congrArg _ (funext fun s => ?_)
      exact ih

/-- A complete replay has consumed whole instructions. -/
theorem words_of_relocLoop {chunks : List UInt16}
    (h : relocLoop bases names chunks s = .ok (true, s')) :
    ∃ ws : List RelocWords, chunks = ws.flatMap RelocWords.chunks := by
  fun_induction relocLoop bases names chunks s with
  | case1 s => exact ⟨[], rfl⟩
  | case2 ch s hlong =>
    obtain ⟨_, -, h⟩ := bind_eq_ok.1 h
    cases h
  | case3 ch s hlong next rest ih =>
    obtain ⟨s₁, -, h⟩ := bind_eq_ok.1 h
    obtain ⟨ws, rfl⟩ := ih s₁ h
    exact ⟨⟨ch, some next, hlong.symm⟩ :: ws, rfl⟩
  | case4 ch rest s hshort ih =>
    obtain ⟨s₁, -, h⟩ := bind_eq_ok.1 h
    obtain ⟨ws, rfl⟩ := ih s₁ h
    exact ⟨⟨ch, none, by simpa using hshort⟩ :: ws, rfl⟩

theorem runWords_complete {ws : List RelocWords} (hs : runWords bases names ws s = .ok s') :
    s'.complete = true ↔ s.complete = true ∧ ∀ w ∈ ws, w.Replayable := by
  induction ws generalizing s with
  | nil =>
    obtain rfl := ok.inj hs
    simp
  | cons w ws ih =>
    obtain ⟨s₁, hs₁, hrest⟩ := bind_eq_ok.1 hs
    rw [ih hrest, applyInstr_complete hs₁, List.forall_mem_cons, and_assoc]

/-- **A program of supported instructions** has the effect that it asks for. -/
theorem Replays.program {before : List String} {complete : Bool} {t : RelocView}
    (h : Replays before complete s t) {ws : List RelocWords} {is : List RelocInstr}
    (hm : ws.map RelocWords.meaning = is.map some) (hs : runWords bases names ws s = .ok s') :
    Replays before complete s' (RelocInstr.applyAll bases names is t) := by
  induction ws generalizing s t is with
  | nil =>
    obtain rfl := List.map_eq_nil_iff.1 hm.symm
    obtain rfl := ok.inj hs
    exact h
  | cons w ws ih =>
    cases is with
    | nil => cases hm
    | cons i is =>
      obtain ⟨hmeaning, hrest⟩ := List.cons.inj hm
      obtain ⟨s₁, hs₁, hs⟩ := bind_eq_ok.1 hs
      exact ih (h.instr hmeaning hs₁) hrest hs

end

end Usbmidi9
