/-
  USBMIDI9 — relocation as sums: the opcode table of `spec/pefcheck-reloc/tasks.md`, and
  what `apply_program` makes of it.

  Given the loader's state, an instruction writes bases to words (`RelocInstr.writes`),
  records imports (`RelocInstr.imports`) and leaves another state (`RelocInstr.after`);
  none of these looks at the section.  `Does` says that a replay did just that, and
  `applyProgram_additive` what every word has gained in the end.
-/
import Usbmidi9.Lib.Scatter
import Usbmidi9.Pef.Complete

namespace Usbmidi9

open Outcome

/-! ## The opcode table -/

/-- The loader's state. -/
structure RelocLoader where
  position : ℕ
  sectC : UInt32
  sectD : UInt32
  importIndex : ℕ

namespace RelocLoader
variable (l : RelocLoader)

/-- The beginning: sections 0 and 1, if they are there. -/
def start (bases : List UInt32) : RelocLoader :=
  ⟨0, (bases[0]?).getD 0, (bases[1]?).getD 0, 0⟩

def move (n : ℕ) : RelocLoader := { l with position := l.position + n }

/-- What is done `n` times, with `d` bytes from one time to the next. -/
def every {α : Type} (n d : ℕ) (f : RelocLoader → List α) : List α :=
  (List.range n).flatMap fun k => f (l.move (k * d))

end RelocLoader

/-- The base of a section, or 0 if it is not there. -/
def sectionBase (bases : List UInt32) (idx : ℕ) : UInt32 := (bases[idx]?).getD 0

namespace RelocInstr
variable (bases : List UInt32) (l : RelocLoader)

/-- The words that are written, each with the base. -/
def writes : RelocInstr → List (ℕ × UInt32)
  | bySectDWithSkip skip n => (l.move (skip * 4)).every n 4 fun l => [(l.position, l.sectD)]
  | bySectC run => l.every run 4 fun l => [(l.position, l.sectC)]
  | bySectD run => l.every run 4 fun l => [(l.position, l.sectD)]
  | tvector12 run => l.every run 12 fun l => [(l.position, l.sectC), (l.position + 4, l.sectD)]
  | tvector8 run => l.every run 8 fun l => [(l.position, l.sectC), (l.position + 4, l.sectD)]
  | vtable8 run => l.every run 8 fun l => [(l.position, l.sectD)]
  | bySection idx => [(l.position, sectionBase bases idx)]
  | importRun _ | byImport _ | setSectC _ | setSectD _ | incrPosition _ | setPosition _ => []

/-- The words that are imports, each with the index of its symbol. -/
def imports : RelocInstr → List (ℕ × ℕ)
  | importRun run => (List.range run).map fun k => (l.position + k * 4, l.importIndex + k)
  | byImport idx => [(l.position, idx)]
  | _ => []

/-- The loader's state behind the instruction. -/
def after : RelocInstr → RelocLoader
  | bySectDWithSkip skip n => l.move (skip * 4 + n * 4)
  | bySectC run => l.move (run * 4)
  | bySectD run => l.move (run * 4)
  | tvector12 run => l.move (run * 12)
  | tvector8 run => l.move (run * 8)
  | vtable8 run => l.move (run * 8)
  | importRun run => { l.move (run * 4) with importIndex := l.importIndex + run }
  | byImport idx => { l.move 4 with importIndex := idx + 1 }
  | setSectC idx => { l with sectC := sectionBase bases idx }
  | setSectD idx => { l with sectD := sectionBase bases idx }
  | bySection _ => l.move 4
  | incrPosition off => l.move off
  | setPosition off => { l with position := off }

/-- The words that a program writes, in program order. -/
def allWrites : RelocLoader → List RelocInstr → List (ℕ × UInt32)
  | _, [] => []
  | l, i :: is => i.writes bases l ++ allWrites (i.after bases l) is

/-- The imports of a program, in program order. -/
def allImports : RelocLoader → List RelocInstr → List (ℕ × ℕ)
  | _, [] => []
  | l, i :: is => i.imports l ++ allImports (i.after bases l) is

end RelocInstr

/-! ## Additions to a section -/

/-- Add to the word at an offset, if it is there. -/
def addAt (content : List UInt8) (w : ℕ × UInt32) : List UInt8 :=
  if w.1 + 4 ≤ content.length then setWord content w.1 (wordAt content w.1 + w.2) else content

section
variable {content : List UInt8} {w : ℕ × UInt32} {ws : List (ℕ × UInt32)}

theorem length_addAt : (addAt content w).length = content.length := by
  unfold addAt
  split_ifs with hfits
  · exact length_setWord hfits
  · rfl

theorem length_foldl_addAt : (ws.foldl addAt content).length = content.length := by
  induction ws generalizing content with
  | nil => rfl
  | cons w ws ih => rw [List.foldl_cons, ih, length_addAt]

/-- Aligned words are the same or apart. -/
theorem wordAt_addAt (hw : 4 ∣ w.1) {p : ℕ} (hp : 4 ∣ p) (hfits : p + 4 ≤ content.length) :
    wordAt (addAt content w) p = wordAt content p + if w.1 = p then w.2 else 0 := by
  unfold addAt
  split_ifs with hin heq heq
  · subst heq
    exact wordAt_setWord hin
  · have hapart : p + 4 ≤ w.1 ∨ w.1 + 4 ≤ p := by omega
    rw [wordAt_setWord_of_disjoint hin hapart, add_zero]
  · subst heq
    exact absurd hfits hin
  · rw [add_zero]

/-- **Every aligned word** gains what the additions assign to it. -/
theorem wordAt_foldl_addAt (haligned : ∀ w ∈ ws, 4 ∣ w.1) {p : ℕ} (hp : 4 ∣ p)
    (hfits : p + 4 ≤ content.length) :
    wordAt (ws.foldl addAt content) p = wordAt content p + assigned ws p := by
  refine read_foldl wordAt (fun c => p + 4 ≤ c.length) ?_ ?_ hfits
  · intro c w _ hc
    rwa [length_addAt]
  · intro c w hw hc
    exact wordAt_addAt (haligned w hw) hp hc

/-- Other bytes stay. -/
theorem getElem?_foldl_addAt {i : ℕ}
    (h : ∀ w ∈ ws, w.1 + 4 ≤ content.length → ¬(w.1 ≤ i ∧ i < w.1 + 4)) :
    (ws.foldl addAt content)[i]? = content[i]? := by
  induction ws generalizing content with
  | nil => rfl
  | cons w ws ih =>
    have hhead : (addAt content w)[i]? = content[i]? := by
      unfold addAt
      split_ifs with hfits
      · rw [getElem?_setWord hfits, if_neg (h w List.mem_cons_self hfits)]
      · rfl
    rw [List.foldl_cons, ih, hhead]
    intro w' hw'
    rw [length_addAt]
    exact h w' (List.mem_cons_of_mem w hw')

end

/-! ## What a replay does -/

/-- The loader's part of the state. -/
def RelocView.loader (t : RelocView) : RelocLoader :=
  ⟨t.position, t.sectC, t.sectD, t.importIndex⟩

/-- How an import is recorded. -/
def importFixup (names : List (List Char)) (m : ℕ × ℕ) : ImportFixup :=
  ⟨m.1, (names[m.2]?).getD s!"<import {m.2}>".toList⟩

/-- From `t` to `t'` the words `ws` were written and the imports `ms` recorded, and the
    loader's state became `l`. -/
structure Does (names : List (List Char)) (t t' : RelocView) (ws : List (ℕ × UInt32))
    (ms : List (ℕ × ℕ)) (l : RelocLoader) : Prop where
  content : t'.content = ws.foldl addAt t.content
  fixups : t'.fixups = t.fixups ++ ms.map (importFixup names)
  loader : t'.loader = l

namespace Does
variable {bases : List UInt32} {names : List (List Char)} {t t' t'' : RelocView}
  {ws ws' : List (ℕ × UInt32)} {ms ms' : List (ℕ × ℕ)} {l l' : RelocLoader}

theorem refl : Does names t t [] [] t.loader := ⟨rfl, (List.append_nil _).symm, rfl⟩

/-- **One after the other.** -/
theorem trans (h : Does names t t' ws ms l) (h' : Does names t' t'' ws' ms' l') :
    Does names t t'' (ws ++ ws') (ms ++ ms') l' where
  content := by rw [List.foldl_append, ← h.content, h'.content]
  fixups := by rw [h'.fixups, h.fixups, List.map_append, List.append_assoc]
  loader := h'.loader

theorem write (base : UInt32) :
    Does names t (t.write base) [(t.position, base)] [] (t.loader.move 4) := by
  unfold RelocView.write
  split_ifs with hfits
  · exact ⟨(if_pos hfits).symm, (List.append_nil _).symm, rfl⟩
  · exact ⟨(if_neg hfits).symm, (List.append_nil _).symm, rfl⟩

theorem skip (n : ℕ) : Does names t (t.skip n) [] [] (t.loader.move n) :=
  ⟨rfl, (List.append_nil _).symm, rfl⟩

theorem import_ (idx : ℕ) :
    Does names t (t.import_ names idx) [] [(t.position, idx)]
      { t.loader.move 4 with importIndex := idx + 1 } :=
  ⟨rfl, rfl, rfl⟩

/-- **Again and again**: what one time does follows from the loader's state. -/
theorem iterate (f : RelocView → RelocView) (w : RelocLoader → List (ℕ × UInt32))
    (m : RelocLoader → List (ℕ × ℕ)) (g : RelocLoader → RelocLoader)
    (h : ∀ t, Does names t (f t) (w t.loader) (m t.loader) (g t.loader)) (n : ℕ) (t : RelocView) :
    Does names t (f^[n] t) ((List.range n).flatMap fun k => w (g^[k] t.loader))
      ((List.range n).flatMap fun k => m (g^[k] t.loader)) (g^[n] t.loader) := by
  induction n with
  | zero => exact refl
  | succ n ih =>
    have hlast := h (f^[n] t)
    rw [ih.loader] at hlast
    rw [Function.iterate_succ_apply', Function.iterate_succ_apply', List.range_succ,
      List.flatMap_append, List.flatMap_append, List.flatMap_singleton, List.flatMap_singleton]
    exact ih.trans hlast

theorem move_move (l : RelocLoader) (m n : ℕ) : (l.move m).move n = l.move (m + n) := by
  simp only [RelocLoader.move, Nat.add_assoc]

theorem move_iterate (l : RelocLoader) (d k : ℕ) :
    (fun l : RelocLoader => l.move d)^[k] l = l.move (k * d) := by
  induction k with
  | zero =>
    rw [Nat.zero_mul]
    rfl
  | succ k ih =>
    rw [Function.iterate_succ_apply', ih, move_move, Nat.succ_mul]

/-- Words that are written every `d` bytes. -/
theorem every (f : RelocView → RelocView) (w : RelocLoader → List (ℕ × UInt32)) {d : ℕ}
    (h : ∀ t, Does names t (f t) (w t.loader) [] (t.loader.move d)) (n : ℕ) (t : RelocView) :
    Does names t (f^[n] t) (t.loader.every n d w) [] (t.loader.move (n * d)) := by
  have hrun := iterate f w (fun _ => []) (fun l => l.move d) h n t
  simp only [move_iterate] at hrun
  rwa [List.flatMap_eq_nil_iff.2 fun _ _ => rfl] at hrun

theorem then_skip (h : Does names t t' ws ms l) (n : ℕ) :
    Does names t (t'.skip n) ws ms (l.move n) := by
  have hboth := h.trans (skip n)
  rwa [List.append_nil, List.append_nil, h.loader] at hboth

/-- A section's base, and a gap if there is none. -/
theorem baseOf (names : List (List Char)) (bases : List UInt32) (t : RelocView) (idx : ℕ) :
    (t.baseOf bases idx).1 = sectionBase bases idx ∧
      Does names t (t.baseOf bases idx).2 [] [] t.loader := by
  unfold RelocView.baseOf sectionBase
  cases bases[idx]? with
  | some base => exact ⟨rfl, refl⟩
  | none => exact ⟨rfl, rfl, (List.append_nil _).symm, rfl⟩

theorem setSectC (h : Does names t t' ws ms l) (base : UInt32) :
    Does names t { t' with sectC := base } ws ms { l with sectC := base } :=
  ⟨h.content, h.fixups, by rw [← h.loader]; rfl⟩

theorem setSectD (h : Does names t t' ws ms l) (base : UInt32) :
    Does names t { t' with sectD := base } ws ms { l with sectD := base } :=
  ⟨h.content, h.fixups, by rw [← h.loader]; rfl⟩

/-- Imports whose indices count up. -/
theorem importRun (n : ℕ) (t : RelocView) :
    Does names t ((fun t => t.import_ names t.importIndex)^[n] t) []
      ((List.range n).map fun k => (t.position + k * 4, t.importIndex + k))
      { t.loader.move (n * 4) with importIndex := t.importIndex + n } := by
  have hstep : ∀ k, (fun l : RelocLoader => { l.move 4 with importIndex := l.importIndex + 1 })^[k]
      t.loader = { t.loader.move (k * 4) with importIndex := t.importIndex + k } := by
    intro k
    induction k with
    | zero => simp [RelocLoader.move, RelocView.loader]
    | succ k ih =>
      rw [Function.iterate_succ_apply', ih, Nat.succ_mul]
      simp only [RelocLoader.move, Nat.add_assoc]
  have hrun := iterate (fun t => t.import_ names t.importIndex) (fun _ => [])
    (fun l => [(l.position, l.importIndex)])
    (fun l => { l.move 4 with importIndex := l.importIndex + 1 })
    (fun t => import_ t.importIndex) n t
  simp only [hstep] at hrun
  rw [List.flatMap_eq_nil_iff.2 fun _ _ => rfl, ← List.map_eq_flatMap] at hrun
  exact hrun

/-- An entry point and its section's data. -/
theorem vector (t : RelocView) :
    Does names t ((t.write t.sectC).write t.sectD)
      [(t.position, t.sectC), (t.position + 4, t.sectD)] [] (t.loader.move 8) := by
  have hfirst : Does names t (t.write t.sectC) _ _ _ := write t.sectC
  have hsecond : Does names (t.write t.sectC) _ _ _ _ := write t.sectD
  have hboth := hfirst.trans hsecond
  have hposition : (t.write t.sectC).position = t.position + 4 :=
    congrArg RelocLoader.position hfirst.loader
  rw [hposition, hfirst.loader] at hboth
  exact hboth

/-- **One instruction** does what the opcode table says. -/
theorem instr (bases : List UInt32) (i : RelocInstr) (t : RelocView) :
    Does names t (i.apply bases names t) (i.writes bases t.loader) (i.imports t.loader)
      (i.after bases t.loader) := by
  cases i with
  | bySectDWithSkip skip n =>
    have hskip : Does names t (t.skip (skip * 4)) _ _ _ := Does.skip (skip * 4)
    have hrun : Does names (t.skip (skip * 4)) _ _ _ _ := every (fun t => t.write t.sectD)
      (fun l => [(l.position, l.sectD)]) (fun t => write t.sectD) n (t.skip (skip * 4))
    have hboth := hskip.trans hrun
    rw [hskip.loader, move_move] at hboth
    exact hboth
  | bySectC run =>
    exact every (fun t => t.write t.sectC) (fun l => [(l.position, l.sectC)])
      (fun t => write t.sectC) run t
  | bySectD run =>
    exact every (fun t => t.write t.sectD) (fun l => [(l.position, l.sectD)])
      (fun t => write t.sectD) run t
  | tvector12 run =>
    exact every (fun t => ((t.write t.sectC).write t.sectD).skip 4)
      (fun l => [(l.position, l.sectC), (l.position + 4, l.sectD)])
      (fun t => (vector t).then_skip 4) run t
  | tvector8 run =>
    exact every (fun t => (t.write t.sectC).write t.sectD)
      (fun l => [(l.position, l.sectC), (l.position + 4, l.sectD)]) vector run t
  | vtable8 run =>
    exact every (fun t => (t.write t.sectD).skip 4) (fun l => [(l.position, l.sectD)])
      (fun t => (write t.sectD).then_skip 4) run t
  | importRun run => exact importRun run t
  | byImport idx => exact import_ idx
  | setSectC idx =>
    obtain ⟨hbase, hstate⟩ := baseOf names bases t idx
    have hset := hstate.setSectC (t.baseOf bases idx).1
    rw [RelocInstr.after, ← hbase]
    exact hset
  | setSectD idx =>
    obtain ⟨hbase, hstate⟩ := baseOf names bases t idx
    have hset := hstate.setSectD (t.baseOf bases idx).1
    rw [RelocInstr.after, ← hbase]
    exact hset
  | bySection idx =>
    obtain ⟨hbase, hstate⟩ := baseOf names bases t idx
    have hboth := hstate.trans (write (t.baseOf bases idx).1)
    have hposition : (t.baseOf bases idx).2.position = t.position :=
      congrArg RelocLoader.position hstate.loader
    rw [hposition, hstate.loader] at hboth
    rw [RelocInstr.writes, ← hbase]
    exact hboth
  | incrPosition off => exact skip off
  | setPosition off => exact ⟨rfl, (List.append_nil _).symm, rfl⟩

/-- **A program**, instruction by instruction. -/
theorem program (names : List (List Char)) (bases : List UInt32) (is : List RelocInstr)
    (t : RelocView) :
    ∃ l, Does names t (RelocInstr.applyAll bases names is t)
      (RelocInstr.allWrites bases t.loader is) (RelocInstr.allImports bases t.loader is) l := by
  induction is generalizing t with
  | nil => exact ⟨_, refl⟩
  | cons i is ih =>
    have hfirst : Does names t _ _ _ _ := instr bases i t
    obtain ⟨l, hrest⟩ := ih (i.apply bases names t)
    rw [hfirst.loader] at hrest
    exact ⟨l, hfirst.trans hrest⟩

end Does

/-! ## Programs as written -/

/-- A program of whole instructions with defined opcodes and no repeat.  What its
    sub-opcodes ask for is `is`; those outside the tables ask for nothing. -/
def Replayed (chunks : List UInt16) (is : List RelocInstr) : Prop :=
  ∃ ws : List RelocWords, chunks = ws.flatMap RelocWords.chunks ∧ (∀ w ∈ ws, w.Replayable) ∧
    is = ws.filterMap RelocWords.meaning

/-- The section and the loader's state, as the executor has them. -/
def RelocState.view (s : RelocState) : RelocView :=
  ⟨s.content, s.addr, s.sectC, s.sectD, s.imp, s.fixups, []⟩

section
variable {bases : List UInt32} {names : List (List Char)} {s s' : RelocState}

/-- One instruction does what the opcode table says. -/
theorem applyInstr_does {w : RelocWords} {i : RelocInstr} (hm : w.meaning = some i)
    (hs : applyInstr bases names s w.first w.next = .ok s') :
    Does names s.view s'.view (i.writes bases s.view.loader) (i.imports s.view.loader)
      (i.after bases s.view.loader) := by
  have hreplays := (Replays.refl s).instr hm hs
  have hdoes : Does names s.view (i.apply bases names s.view) _ _ _ := Does.instr bases i s.view
  refine ⟨hreplays.content.trans hdoes.content, hreplays.fixups.trans hdoes.fixups, ?_⟩
  rw [← hdoes.loader, RelocState.view, RelocView.loader, RelocView.loader, hreplays.position,
    hreplays.sectC, hreplays.sectD, hreplays.importIndex]
  rfl

/-- Instructions one after the other; those that ask for nothing do nothing. -/
theorem runWords_does {ws : List RelocWords} (hws : ∀ w ∈ ws, w.Replayable)
    (hs : runWords bases names ws s = .ok s') :
    ∃ l, Does names s.view s'.view
      (RelocInstr.allWrites bases s.view.loader (ws.filterMap RelocWords.meaning))
      (RelocInstr.allImports bases s.view.loader (ws.filterMap RelocWords.meaning)) l := by
  induction ws generalizing s with
  | nil =>
    obtain rfl := ok.inj hs
    exact ⟨_, Does.refl⟩
  | cons w ws ih =>
    obtain ⟨hw, hws⟩ := List.forall_mem_cons.1 hws
    obtain ⟨s₁, hs₁, hrest⟩ := bind_eq_ok.1 hs
    obtain ⟨l, hdoes⟩ := ih hws hrest
    cases hm : w.meaning with
    | none =>
      obtain ⟨msg, hnote⟩ := applyInstr_unsupported hw hm
      obtain rfl := ok.inj (hnote.symm.trans hs₁)
      rw [List.filterMap_cons_none hm]
      exact ⟨l, hdoes⟩
    | some i =>
      have hfirst : Does names s.view s₁.view _ _ _ := applyInstr_does hm hs₁
      rw [hfirst.loader] at hdoes
      rw [List.filterMap_cons_some hm]
      exact ⟨l, hfirst.trans hdoes⟩

end

/-! ## The whole replay -/

/-- A program of whole and supported instructions is replayed to its end. -/
theorem exists_replay {chunks : List UInt16} {is : List RelocInstr}
    (hprogram : RelocProgram chunks is) (hlen : chunks.length < 2 ^ 49) (bases : List UInt32)
    (names : List (List Char)) (content : List UInt8) (fixups : List ImportFixup)
    (notes : List String) :
    ∃ s, applyProgram chunks bases names content fixups notes = .ok (true, s) ∧
      Replays notes true s
        (RelocInstr.applyAll bases names is (.start bases content fixups)) := by
  obtain ⟨ws, hws, his⟩ := hprogram
  have hreplay : ∀ w ∈ ws, w.Replayable := fun w hw => (supported_of_map his w hw).replayable
  let r : Replay := ⟨chunks, bases, names, content, fixups, notes⟩
  have hrun : ∃ s, r.run = .ok (true, s) := Replay.run_of_words hlen hws hreplay
  obtain ⟨s, hs⟩ := hrun
  obtain ⟨ws', hws', -, hwords⟩ := Replay.words_of_run hs
  obtain rfl := relocWords_inj (hws.symm.trans hws')
  exact ⟨s, hs, Replay.replays_start.program his hwords⟩

/-- **What a complete replay leaves** of the content: the writes of the opcode table, one
    after the other. -/
theorem run_complete_iff {r : Replay} (hlen : r.chunks.length < 2 ^ 49) {content : List UInt8} :
    (∃ s, r.run = .ok (true, s) ∧ s.content = content) ↔
      ∃ is, Replayed r.chunks is ∧
        content = (RelocInstr.allWrites r.bases (.start r.bases) is).foldl addAt r.content := by
  constructor
  · rintro ⟨s, hs, rfl⟩
    obtain ⟨ws, hws, hreplay, hrun⟩ := Replay.words_of_run hs
    obtain ⟨l, hdoes⟩ := runWords_does hreplay hrun
    exact ⟨_, ⟨ws, hws, hreplay, rfl⟩, hdoes.content⟩
  · rintro ⟨_, ⟨ws, hws, hreplay, rfl⟩, rfl⟩
    obtain ⟨s, hs⟩ := Replay.run_of_words hlen hws hreplay
    obtain ⟨ws', hws', -, hrun⟩ := Replay.words_of_run hs
    obtain rfl := relocWords_inj (hws.symm.trans hws')
    obtain ⟨l, hdoes⟩ := runWords_does hreplay hrun
    exact ⟨s, hs, hdoes.content⟩

/-- **Replay is additive**: a program of whole and supported instructions that writes at
    multiples of 4 is replayed to its end.  Every such word gains the bases that the opcode
    table assigns to it, so that words without one stay as they are, and so do all bytes
    outside the written words that are there; the imports are recorded in program order. -/
theorem applyProgram_additive {chunks : List UInt16} {is : List RelocInstr}
    (hprogram : RelocProgram chunks is) (hlen : chunks.length < 2 ^ 49) (bases : List UInt32)
    (haligned : ∀ w ∈ RelocInstr.allWrites bases (.start bases) is, 4 ∣ w.1)
    (names : List (List Char)) (content : List UInt8) (fixups : List ImportFixup)
    (notes : List String) :
    ∃ s, applyProgram chunks bases names content fixups notes = .ok (true, s) ∧
      s.content.length = content.length ∧
      (∀ p, 4 ∣ p → p + 4 ≤ content.length → wordAt s.content p =
        wordAt content p + assigned (RelocInstr.allWrites bases (.start bases) is) p) ∧
      (∀ p, 4 ∣ p → p + 4 ≤ content.length →
        (∀ w ∈ RelocInstr.allWrites bases (.start bases) is, w.1 ≠ p) →
        wordAt s.content p = wordAt content p) ∧
      (∀ i, (∀ w ∈ RelocInstr.allWrites bases (.start bases) is,
          w.1 + 4 ≤ content.length → ¬(w.1 ≤ i ∧ i < w.1 + 4)) →
        s.content[i]? = content[i]?) ∧
      s.fixups = fixups ++
        (RelocInstr.allImports bases (.start bases) is).map (importFixup names) := by
  obtain ⟨s, hs, hreplays⟩ := exists_replay hprogram hlen bases names content fixups notes
  obtain ⟨l, hdoes⟩ := Does.program names bases is (.start bases content fixups)
  have hcontent : s.content =
      (RelocInstr.allWrites bases (.start bases) is).foldl addAt content :=
    hreplays.content.trans hdoes.content
  have hword : ∀ p, 4 ∣ p → p + 4 ≤ content.length → wordAt s.content p =
      wordAt content p + assigned (RelocInstr.allWrites bases (.start bases) is) p := by
    intro p hp hfits
    rw [hcontent]
    exact wordAt_foldl_addAt haligned hp hfits
  refine ⟨s, hs, ?_, hword, ?_, ?_, hreplays.fixups.trans hdoes.fixups⟩
  · rw [hcontent]
    exact length_foldl_addAt
  · intro p hp hfits hnone
    rw [hword p hp hfits, assigned_eq_zero hnone, add_zero]
  · intro i hi
    rw [hcontent]
    exact getElem?_foldl_addAt hi

/-- Section D's base, and back at the same word an entry point, its data, and an import. -/
theorem applyProgram_additive_overlap :
    ∃ s, applyProgram [0x4200, 0xa000, 0, 0x4600, 0x6000] [0x10000000, 0x20000000] [['f']]
        (List.replicate 12 1) [] [] = .ok (true, s) ∧
      wordAt s.content 0 = 0x01010101 + (0x20000000 + 0x10000000) ∧
      wordAt s.content 4 = 0x01010101 + 0x20000000 ∧ wordAt s.content 8 = 0x01010101 ∧
      s.fixups = [⟨8, ['f']⟩] := by
  have hprogram : RelocProgram [0x4200, 0xa000, 0, 0x4600, 0x6000]
      [.bySectD 1, .setPosition 0, .tvector8 1, .byImport 0] :=
    ⟨[⟨0x4200, none, rfl⟩, ⟨0xa000, some 0, rfl⟩, ⟨0x4600, none, rfl⟩, ⟨0x6000, none, rfl⟩],
      rfl, rfl⟩
  obtain ⟨s, hs, -, hwords, hsame, -, hfixups⟩ :=
    applyProgram_additive hprogram (by decide) [0x10000000, 0x20000000] (by decide) [['f']]
      (List.replicate 12 1) [] []
  refine ⟨s, hs, ?_, ?_, ?_, hfixups⟩
  · exact (hwords 0 (by decide) (by decide)).trans (by decide)
  · exact (hwords 4 (by decide) (by decide)).trans (by decide)
  · exact (hsame 8 (by decide) (by decide) (by decide)).trans (by decide)

end Usbmidi9
