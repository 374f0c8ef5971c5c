/-
  USBMIDI9 — when a replay that is reported complete was complete.

  `apply_program` returns true for a program of whole instructions with defined
  opcodes and no repeat (`run_complete`).  An unsupported sub-opcode is only noted,
  so that the report is right exactly for the programs of `SupportedOrPartial`.
-/
import Usbmidi9.Pef.Relocate

namespace Usbmidi9

open Outcome

/-! ## Programs as written -/

/-- Instructions are written in one way. -/
theorem relocWords_inj {ws ws' : List RelocWords}
    (h : ws.flatMap RelocWords.chunks = ws'.flatMap RelocWords.chunks) : ws = ws' := by
  induction ws generalizing ws' with
  | nil =>
    cases ws' with
    | nil => rfl
    | cons w' ws' => cases h
  | cons w ws ih =>
    cases ws' with
    | nil => cases h
    | cons w' ws' =>
      obtain ⟨first, second, hlong⟩ := w
      obtain ⟨first', second', hlong'⟩ := w'
      obtain ⟨rfl, htail⟩ := List.cons.inj h
      cases second with
      | none =>
        cases second' with
        | none => rw [ih htail]
        | some n' => exact absurd (hlong.trans hlong'.symm) (by simp)
      | some n =>
        cases second' with
        | none => exact absurd (hlong.trans hlong'.symm) (by simp)
        | some n' =>
          obtain ⟨rfl, hrest⟩ := List.cons.inj htail
          rw [ih hrest]

/-- What supported instructions ask for. -/
theorem exists_instrs {ws : List RelocWords} (h : ∀ w ∈ ws, w.Supported) :
    ∃ is : List RelocInstr, ws.map RelocWords.meaning = is.map some := by
  induction ws with
  | nil => exact ⟨[], rfl⟩
  | cons w ws ih =>
    obtain ⟨hw, hws⟩ := List.forall_mem_cons.1 h
    obtain ⟨is, his⟩ := ih hws
    obtain ⟨i, hi⟩ := Option.isSome_iff_exists.1 hw
    exact ⟨i :: is, by rw [List.map_cons, List.map_cons, hi, his]⟩

theorem supported_of_map {ws : List RelocWords} {is : List RelocInstr}
    (h : ws.map RelocWords.meaning = is.map some) : ∀ w ∈ ws, w.Supported := by
  intro w hw
  have hmem : w.meaning ∈ is.map some := by
    rw [← h]
    exact List.mem_map_of_mem hw
  obtain ⟨i, -, hi⟩ := List.mem_map.1 hmem
  rw [RelocWords.Supported, ← hi]
  rfl

/-- The program is cut short, has a repeat or an undefined opcode, or else all of its
    sub-opcodes are supported. -/
def SupportedOrPartial (chunks : List UInt16) : Prop :=
  ∀ ws : List RelocWords, chunks = ws.flatMap RelocWords.chunks →
    (∃ w ∈ ws, ¬ w.Replayable) ∨ ∀ w ∈ ws, w.Supported

/-! ## Replays -/

/-- What `apply_program` is called with. -/
structure Replay where
  chunks : List UInt16
  bases : List UInt32
  names : List (List Char)
  content : List UInt8
  fixups : List ImportFixup
  notes : List String

namespace Replay
variable (r : Replay)

def run : Outcome Empty (Bool × RelocState) :=
  applyProgram r.chunks r.bases r.names r.content r.fixups r.notes

/-- Where the program leads. -/
def result (is : List RelocInstr) : RelocView :=
  RelocInstr.applyAll r.bases r.names is (.start r.bases r.content r.fixups)

/-- If the replay is reported complete, the program consists of whole and supported
    instructions, and their effects are there. -/
def Honest : Prop :=
  ∀ s, r.run = .ok (true, s) →
    ∃ is, RelocProgram r.chunks is ∧ Replays r.notes true s (r.result is)

/-- The same, and nothing lay outside the decoded content or in a missing section. -/
def HonestInFull : Prop :=
  ∀ s, r.run = .ok (true, s) →
    ∃ is, RelocProgram r.chunks is ∧ Replays r.notes true s (r.result is) ∧
      (r.result is).gaps = []

/-- No instruction reaches outside the decoded content or names a missing section. -/
def NoGaps : Prop := ∀ is, RelocProgram r.chunks is → (r.result is).gaps = []

variable {r}

/-- The variables at the beginning. -/
def start (r : Replay) : RelocState :=
  { content := r.content, addr := 0, sectC := (r.bases[0]?).getD 0,
    sectD := (r.bases[1]?).getD 0, imp := 0, fixups := r.fixups, notes := r.notes,
    complete := true }

theorem run_words {ws : List RelocWords} (h : r.chunks = ws.flatMap RelocWords.chunks) :
    r.run = runWords r.bases r.names ws r.start >>= fun s => .ok (s.complete, s) := by
  rw [run, h]
  exact relocLoop_words

theorem replays_start : Replays r.notes true r.start (.start r.bases r.content r.fixups) :=
  ⟨rfl, rfl, rfl, rfl, rfl, rfl, (List.append_nil _).symm, rfl⟩

/-- A replay that is reported complete has replayed whole instructions with defined
    opcodes and no repeat. -/
theorem words_of_run {s : RelocState} (h : r.run = .ok (true, s)) :
    ∃ ws : List RelocWords, r.chunks = ws.flatMap RelocWords.chunks ∧
      (∀ w ∈ ws, w.Replayable) ∧ runWords r.bases r.names ws r.start = .ok s := by
  obtain ⟨ws, hws⟩ := words_of_relocLoop h
  obtain ⟨s₁, hs₁, hdone⟩ := bind_eq_ok.1 ((run_words hws).symm.trans h)
  obtain ⟨hcomplete, rfl⟩ := Prod.mk.inj (ok.inj hdone)
  exact ⟨ws, hws, ((runWords_complete hs₁).1 hcomplete).2, hs₁⟩

/-- Such instructions are reported complete, whatever their sub-opcodes are. -/
theorem run_of_words (hlen : r.chunks.length < 2 ^ 49) {ws : List RelocWords}
    (hws : r.chunks = ws.flatMap RelocWords.chunks) (hreplay : ∀ w ∈ ws, w.Replayable) :
    ∃ s, r.run = .ok (true, s) := by
  have hsafe : r.run.Safe fun _ => True := applyProgram_safe hlen
  obtain ⟨⟨b, s⟩, hs, -⟩ := hsafe.exists_eq_ok
  obtain ⟨s₁, hs₁, hdone⟩ := bind_eq_ok.1 ((run_words hws).symm.trans hs)
  have hcomplete : s₁.complete = true := (runWords_complete hs₁).2 ⟨rfl, hreplay⟩
  obtain ⟨hb, rfl⟩ := Prod.mk.inj (ok.inj hdone)
  exact ⟨s₁, by rw [hs, ← hb, hcomplete]⟩

/-- A program of supported instructions is replayed as it says. -/
theorem replays_of_run (hsup : SupportedOrPartial r.chunks) {s : RelocState}
    (h : r.run = .ok (true, s)) :
    ∃ is, RelocProgram r.chunks is ∧ Replays r.notes true s (r.result is) := by
  obtain ⟨ws, hws, hreplay, hrun⟩ := words_of_run h
  rcases hsup ws hws with ⟨w, hw, hnot⟩ | hall
  · exact absurd (hreplay w hw) hnot
  · obtain ⟨is, his⟩ := exists_instrs hall
    exact ⟨is, ⟨ws, hws, his⟩, replays_start.program his hrun⟩

/-- The report is right only for such programs. -/
theorem supported_of_honest (hlen : r.chunks.length < 2 ^ 49)
    (h : ∀ s, r.run = .ok (true, s) → ∃ is, RelocProgram r.chunks is) :
    SupportedOrPartial r.chunks := by
  intro ws hws
  by_contra hneither
  push Not at hneither
  obtain ⟨hreplay, w, hw, hnot⟩ := hneither
  obtain ⟨s, hs⟩ := run_of_words hlen hws hreplay
  obtain ⟨is, ws', hws', his⟩ := h s hs
  obtain rfl := relocWords_inj (hws.symm.trans hws')
  exact hnot (supported_of_map his w hw)

end Replay

/-! ## Containers -/

/-- The relocation program of a section. -/
def SectionProgram (c : Container) (i : ℕ) (chunks : List UInt16) : Prop :=
  ∃ headers header, parseRelocHeaders c = .ok headers ∧
    headers.find? (·.sectionIndex.toNat = i) = some header ∧ header.chunks = chunks

/-- How a section was relocated. -/
theorem relocateSection_cases {c : Container} {i : ℕ} {res : RelocResult}
    (h : relocateSection c i = .ok res) :
    ∃ headers header, parseRelocHeaders c = .ok headers ∧
      headers.find? (·.sectionIndex.toNat = i) = some header ∧
      ∃ (r : Replay) (s : RelocState), r.chunks = header.chunks ∧
        r.run = .ok (res.relocComplete, s) ∧
        res.complete = (res.decodeStatus.isOk && res.relocComplete) := by
  obtain ⟨_, -, h⟩ := bind_eq_ok.1 h
  obtain ⟨headers, hheaders, h⟩ := bind_eq_ok.1 h
  obtain ⟨header, hheader, h⟩ := bind_eq_ok.1 h
  obtain ⟨section_, -, h⟩ := bind_eq_ok.1 h
  obtain ⟨⟨content, status⟩, -, h⟩ := bind_eq_ok.1 h
  obtain ⟨bases, -, h⟩ := bind_eq_ok.1 h
  obtain ⟨names, -, h⟩ := bind_eq_ok.1 h
  obtain ⟨⟨b, s⟩, hrun, h⟩ := bind_eq_ok.1 h
  obtain rfl := ok.inj h
  exact ⟨headers, header, hheaders, okOr_eq_ok.1 hheader,
    ⟨header.chunks, bases, names, content, [], []⟩, s, rfl, lift_eq_ok.1 hrun, rfl⟩

/-- A section that is reported complete has a replay that is reported complete. -/
theorem run_of_relocateSection {c : Container} {i : ℕ} {chunks : List UInt16}
    (hprogram : SectionProgram c i chunks) {res : RelocResult}
    (h : relocateSection c i = .ok res) (hcomplete : res.complete = true) :
    ∃ (r : Replay) (s : RelocState), r.chunks = chunks ∧ r.run = .ok (true, s) := by
  obtain ⟨headers, header, hheaders, hheader, rfl⟩ := hprogram
  obtain ⟨headers', header', hheaders', hheader', r, s, hchunks, hrun, hres⟩ :=
    relocateSection_cases h
  obtain rfl := ok.inj (hheaders.symm.trans hheaders')
  obtain rfl := Option.some.inj (hheader.symm.trans hheader')
  rw [hres] at hcomplete
  obtain ⟨-, hreplay⟩ := Bool.and_eq_true_iff.1 hcomplete
  rw [hreplay] at hrun
  exact ⟨r, s, hchunks, hrun⟩

/-- An analysis is that of the section which the main symbol is in. -/
theorem analyzeVector_of_specialMainVector {c : Container} {a : VectorAnalysis}
    (h : specialMainVector c = .ok (some a)) :
    ¬c.loader.mainSection < 0 ∧ a.sectionIndex = c.loader.mainSection.toInt.toNat ∧
      ∃ r, relocateSection c a.sectionIndex = .ok r ∧ analyzeVector c a.sectionIndex r = .ok a := by
  unfold specialMainVector at h
  dsimp only at h
  split_ifs at h with hnone hout
  · cases h
  · cases h
  obtain ⟨result, hresult, h⟩ := bind_eq_ok.1 h
  cases result with
  | error e => cases h
  | ok r =>
    obtain ⟨a', ha, h⟩ := bind_eq_ok.1 h
    obtain rfl := Option.some.inj (ok.inj h)
    have hindex : a'.sectionIndex = c.loader.mainSection.toInt.toNat := by
      obtain ⟨bytes, -, ha⟩ := bind_eq_ok.1 ha
      obtain ⟨status, -, ha⟩ := bind_eq_ok.1 ha
      obtain rfl := ok.inj ha
      rfl
    refine ⟨hnone, hindex, r, ?_, ?_⟩
    · rw [hindex]
      exact attempt_eq_ok.1 hresult
    · rw [hindex]
      exact ha

/-- A vector that is reported valid is in a section that is reported complete. -/
theorem relocateSection_of_valid {c : Container} {a : VectorAnalysis}
    (h : specialMainVector c = .ok (some a)) {entry toc : ResolvedPointer}
    (hvalid : a.status = .valid entry toc) :
    ∃ res, relocateSection c a.sectionIndex = .ok res ∧ res.complete = true := by
  obtain ⟨-, -, res, hres, ha⟩ := analyzeVector_of_specialMainVector h
  refine ⟨res, hres, ?_⟩
  obtain ⟨bytes, -, ha⟩ := bind_eq_ok.1 ha
  obtain ⟨status, hstatus, ha⟩ := bind_eq_ok.1 ha
  have hstatus' : status = .valid entry toc := by
    rw [← hvalid, ← ok.inj ha]
  subst hstatus'
  cases bytes with
  | none => cases hstatus
  | some b =>
    obtain ⟨w0, -, hstatus⟩ := bind_eq_ok.1 hstatus
    obtain ⟨w1, -, hstatus⟩ := bind_eq_ok.1 hstatus
    split_ifs at hstatus with hpartial hvector
    · cases hstatus
    · exact Bool.of_not_eq_false hpartial
    · cases hstatus

/-- A program of supported instructions, as it was written. -/
theorem supported_of_program {chunks : List UInt16} (h : ∃ is, RelocProgram chunks is) :
    SupportedOrPartial chunks := by
  obtain ⟨is, ws, hws, his⟩ := h
  intro ws' hws'
  obtain rfl := relocWords_inj (hws.symm.trans hws')
  exact .inr (supported_of_map his)

/-- **A replay that is reported complete was complete** exactly for the programs that are
    partial anyway or have only supported sub-opcodes; in full, if also nothing lies outside
    the decoded content or in a missing section.  The same condition decides whether a
    section that is reported complete, or a vector that is reported valid, is one. -/
theorem replay_honest (r : Replay) :
    (SupportedOrPartial r.chunks → r.Honest) ∧
    (SupportedOrPartial r.chunks ∧ r.NoGaps → r.HonestInFull) ∧
    (r.chunks.length < 2 ^ 49 →
      (r.Honest → SupportedOrPartial r.chunks) ∧
      (r.HonestInFull → SupportedOrPartial r.chunks ∧ r.NoGaps)) ∧
    ∀ (c : Container) (i : ℕ), SectionProgram c i r.chunks →
      (∀ res, relocateSection c i = .ok res → res.complete = true →
        ((∃ is, RelocProgram r.chunks is) ↔ SupportedOrPartial r.chunks)) ∧
      (∀ a entry toc, specialMainVector c = .ok (some a) → a.sectionIndex = i →
        a.status = .valid entry toc →
        ((∃ is, RelocProgram r.chunks is) ↔ SupportedOrPartial r.chunks)) := by
  refine ⟨?_, ?_, ?_, ?_⟩
  · intro hsup s hs
    exact Replay.replays_of_run hsup hs
  · rintro ⟨hsup, hgaps⟩ s hs
    obtain ⟨is, his, hreplays⟩ := Replay.replays_of_run hsup hs
    exact ⟨is, his, hreplays, hgaps is his⟩
  · intro hlen
    constructor
    · intro h
      refine Replay.supported_of_honest hlen fun s hs => ?_
      obtain ⟨is, his, -⟩ := h s hs
      exact ⟨is, his⟩
    · intro h
      refine ⟨Replay.supported_of_honest hlen fun s hs => ?_, ?_⟩
      · obtain ⟨is, his, -⟩ := h s hs
        exact ⟨is, his⟩
      · rintro is ⟨ws, hws, his⟩
        have hreplay : ∀ w ∈ ws, w.Replayable := by
          intro w hw
          exact (supported_of_map his w hw).replayable
        obtain ⟨s, hs⟩ := Replay.run_of_words hlen hws hreplay
        obtain ⟨is', ⟨ws', hws', his'⟩, -, hgaps⟩ := h s hs
        obtain rfl := relocWords_inj (hws.symm.trans hws')
        obtain rfl := List.map_injective_iff.2 (Option.some_injective _) (his.symm.trans his')
        exact hgaps
  · intro c i hprogram
    have hsection : ∀ res, relocateSection c i = .ok res → res.complete = true →
        ((∃ is, RelocProgram r.chunks is) ↔ SupportedOrPartial r.chunks) := by
      intro res hres hcomplete
      refine ⟨supported_of_program, fun hsup => ?_⟩
      obtain ⟨r', s, hr', hs⟩ := run_of_relocateSection hprogram hres hcomplete
      obtain ⟨is, his, -⟩ := Replay.replays_of_run (hr'.symm ▸ hsup) hs
      exact ⟨is, hr' ▸ his⟩
    refine ⟨hsection, ?_⟩
    rintro a entry toc ha rfl hvalid
    obtain ⟨res, hres, hcomplete⟩ := relocateSection_of_valid ha hvalid
    exact hsection res hres hcomplete

/-- A value group with sub-opcode 6: noted, without an effect, and reported complete. -/
theorem replay_unsupported :
    let r : Replay := ⟨[0x4c00], [0x10000000], [], [0, 0, 0, 0], [], []⟩
    (∃ s, r.run = .ok (true, s) ∧ s.content = [0, 0, 0, 0] ∧
      s.notes = ["unsupported RelocValueGroup subopcode 6"]) ∧
    ¬ r.Honest := by
  constructor
  · exact ⟨_, rfl, rfl, rfl⟩
  · intro h
    obtain ⟨is, ⟨ws, hws, his⟩, -⟩ := h _ rfl
    have hwritten : ws = [⟨0x4c00, none, rfl⟩] := relocWords_inj hws.symm
    subst hwritten
    exact absurd (supported_of_map his _ (List.mem_singleton_self _)) (by decide)

end Usbmidi9
