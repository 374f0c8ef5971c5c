/-
  USBMIDI9 — the SysEx tags of the messages that a client takes.

  `WellBracketed` is the law of the tags: an inner chunk follows the start of its
  run, and a run starts after the end of the one before it.  The tag of a message
  is decided when its packet is fed, even if the message is then dropped, so the
  law holds in every run in which no packet that begins or ends a SysEx run is fed
  while the queue is full (`KeepsRuns`), and only in these
  (`rx_wellBracketed_iff`).
-/
import Usbmidi9.Core.Bounded
import Usbmidi9.Lib.Trace

namespace Usbmidi9

/-! ## The law -/

/-- The law of the tags. -/
structure WellBracketed (tags : List SysexPos) : Prop where
  /-- Every MID is preceded by a START with no END between them. -/
  mid : ∀ pre post, tags = pre ++ .mid :: post →
    ∃ a b, pre = a ++ .start :: b ∧ SysexPos.end_ ∉ b
  /-- Between two STARTs is an END. -/
  start : ∀ a b c, tags = a ++ .start :: (b ++ .start :: c) → SysexPos.end_ ∈ b

/-- A run is open after these tags: it has started and has not ended. -/
def Open (tags : List SysexPos) : Prop :=
  ∃ a b, tags = a ++ .start :: b ∧ SysexPos.end_ ∉ b

/-- What the law asks of one tag: only an open run goes on, and only a closed one
    starts. -/
def TagFits (pre : List SysexPos) (tag : SysexPos) : Prop :=
  (tag = .mid → Open pre) ∧ (tag = .start → ¬Open pre)

theorem tagFits_none {pre : List SysexPos} : TagFits pre .none :=
  ⟨fun h => absurd h (by decide), fun h => absurd h (by decide)⟩

theorem tagFits_end {pre : List SysexPos} : TagFits pre .end_ :=
  ⟨fun h => absurd h (by decide), fun h => absurd h (by decide)⟩

theorem tagFits_start {pre : List SysexPos} (h : ¬Open pre) : TagFits pre .start :=
  ⟨fun h => absurd h (by decide), fun _ => h⟩

theorem tagFits_mid {pre : List SysexPos} (h : Open pre) : TagFits pre .mid :=
  ⟨fun _ => h, fun h => absurd h (by decide)⟩

theorem not_open_nil : ¬Open [] := by
  rintro ⟨a, b, h, -⟩
  simp at h

theorem open_concat {tags : List SysexPos} {tag : SysexPos} :
    Open (tags ++ [tag]) ↔ tag = .start ∨ tag ≠ .end_ ∧ Open tags := by
  constructor
  · rintro ⟨a, b, heq, hb⟩
    rcases List.eq_nil_or_concat b with rfl | ⟨b, x, rfl⟩
    · obtain ⟨-, hlast⟩ := List.append_inj' heq rfl
      exact .inl (List.singleton_inj.1 hlast)
    · have hsplit : tags ++ [tag] = (a ++ .start :: b) ++ [x] := by simpa using heq
      obtain ⟨rfl, hlast⟩ := List.append_inj' hsplit rfl
      obtain rfl := List.singleton_inj.1 hlast
      rw [List.concat_eq_append, List.mem_append, List.mem_singleton, not_or] at hb
      exact .inr ⟨Ne.symm hb.2, a, b, rfl, hb.1⟩
  · rintro (rfl | ⟨hend, a, b, rfl, hb⟩)
    · exact ⟨tags, [], rfl, List.not_mem_nil⟩
    · refine ⟨a, b ++ [tag], by simp, ?_⟩
      rw [List.mem_append, List.mem_singleton, not_or]
      exact ⟨hb, Ne.symm hend⟩

/-- **The law, tag by tag.** -/
theorem wellBracketed_iff {tags : List SysexPos} : WellBracketed tags ↔ Each TagFits tags := by
  constructor
  · rintro ⟨hmid, hstart⟩ pre tag post rfl
    constructor
    · rintro rfl
      exact hmid pre post rfl
    · rintro rfl ⟨a, b, rfl, hb⟩
      exact hb (hstart a b post (by simp))
  · intro h
    refine ⟨?_, ?_⟩
    · rintro pre post rfl
      exact (h pre .mid post rfl).1 rfl
    · rintro a b c rfl
      by_contra hb
      exact (h (a ++ .start :: b) .start c (by simp)).2 rfl ⟨a, b, rfl, hb⟩

/-! ## One packet -/

/-- The tag of a decoded message fits where a run is open exactly inside SysEx, and
    leaves a run open exactly if the decoder goes on inside SysEx. -/
theorem decodeStep_brackets {b : Bool} {pre : List SysexPos} (hpre : Open pre ↔ b = true)
    (h : Each TagFits pre) (p : EventPacket) :
    Each TagFits (pre ++ (decodeStep b p).2.map Message.sysex) ∧
      (Open (pre ++ (decodeStep b p).2.map Message.sysex) ↔ (decodeStep b p).1 = true) := by
  by_cases hcin : p.cin ∈ specialCins
  · simp only [specialCins, List.mem_cons, List.not_mem_nil, or_false] at hcin
    rcases hcin with hcin | hcin | hcin | hcin
    · rw [decodeStep_drop b (.inl hcin), List.map_nil, List.append_nil]
      exact ⟨h, hpre⟩
    · rw [decodeStep_drop b (.inr hcin), List.map_nil, List.append_nil]
      exact ⟨h, hpre⟩
    · rw [decodeStep_start b hcin, List.map_singleton, open_concat]
      cases b with
      | false => exact ⟨h.concat (tagFits_start (by simp [hpre])), by simp⟩
      | true => exact ⟨h.concat (tagFits_mid (hpre.2 rfl)), by simp [hpre]⟩
    · rw [decodeStep_end b hcin, List.map_singleton, open_concat]
      cases b with
      | false =>
        split_ifs
        · exact ⟨h.concat tagFits_none, by simp [hpre]⟩
        · exact ⟨h.concat tagFits_end, by simp⟩
      | true => exact ⟨h.concat tagFits_end, by simp⟩
  · rw [decodeStep_message b hcin, List.map_singleton, open_concat]
    exact ⟨h.concat tagFits_none, by simp [hpre]⟩

/-! ## Runs of the stream -/

/-- A packet that starts or ends a SysEx run is not fed while the queue is full. -/
def KeepsRuns (s : RxStream) : BufferOp EventPacket → Prop
  | .feed p => p.cable = s.cable → s.count = um9RxQueue →
      (p.cin = cinSysexStart → s.inSysex = true) ∧
        (p.cin = cinSysexEnd1 ∨ p.cin = cinSysexEnd2 ∨ p.cin = cinSysexEnd3 → s.inSysex = false)
  | .take => True

/-- These are the packets that move the SysEx bit. -/
theorem decodeStep_fst_eq_iff {b : Bool} {p : EventPacket} :
    (decodeStep b p).1 = b ↔ (p.cin = cinSysexStart → b = true) ∧
      (p.cin = cinSysexEnd1 ∨ p.cin = cinSysexEnd2 ∨ p.cin = cinSysexEnd3 → b = false) := by
  by_cases hcin : p.cin ∈ specialCins
  · simp only [specialCins, List.mem_cons, List.not_mem_nil, or_false] at hcin
    rcases hcin with hcin | hcin | hcin | hcin
    · rw [decodeStep_drop b (.inl hcin), hcin]
      simp
    · rw [decodeStep_drop b (.inr hcin), hcin]
      simp
    · rw [decodeStep_start b hcin, hcin]
      simp [eq_comm]
    · rw [decodeStep_end b hcin]
      rcases hcin with hcin | hcin | hcin
      · simp [hcin, eq_comm]
      · simp [hcin, eq_comm]
      · simp [hcin, eq_comm]
  · rw [decodeStep_message b hcin]
    obtain ⟨-, -, h4, h6, h7, h8⟩ := notMem_specialCins.1 hcin
    simp [h4, h6, h7, h8]

/-- The tags of the messages that have been taken or are pending obey the law, and a
    run is open behind them exactly inside SysEx. -/
structure Bracketed (taken : List RxMsg) (s : RxStream) : Prop where
  wf : s.Wf
  cable : s.cable < 16
  fits : Each TagFits ((taken ++ s.queue).map RxMsg.sysex)
  open_iff : Open ((taken ++ s.queue).map RxMsg.sysex) ↔ s.inSysex = true

theorem Bracketed.feed {taken : List RxMsg} {s : RxStream} (h : Bracketed taken s)
    {p : EventPacket} (hp : KeepsRuns s (.feed p)) :
    Bracketed taken (um9RxPacket s p.bytes).1 := by
  by_cases hcable : p.cable = s.cable
  · have hs := um9RxPacket_stepped h.wf hcable
    have hqueue := hs.queue
    rw [RxStream.queue_stat, RxStream.length_queue] at hqueue
    have hsysex : (um9RxPacket s p.bytes).1.inSysex = (decodeStep s.inSysex p).1 := hs.inSysex
    by_cases hfull : s.count = um9RxQueue
    · rw [hfull, Nat.sub_self, List.take_zero, List.append_nil] at hqueue
      have hsame := decodeStep_fst_eq_iff.2 (hp hcable hfull)
      exact ⟨hs.wf, hs.cable ▸ h.cable, by rw [hqueue]; exact h.fits,
        by rw [hqueue, hsysex, hsame]; exact h.open_iff⟩
    · have hlt := lt_of_le_of_ne h.wf.count hfull
      have hone : (decodeStep s.inSysex p).2.length ≤ 1 := length_decodeStep_le s.inSysex p
      rw [List.take_of_length_le (by rw [List.length_map]; omega)] at hqueue
      have htags : (taken ++ (um9RxPacket s p.bytes).1.queue).map RxMsg.sysex =
          (taken ++ s.queue).map RxMsg.sysex ++
            (decodeStep s.inSysex p).2.map Message.sysex := by
        rw [hqueue, ← List.append_assoc, List.map_append, List.map_map]
        rfl
      obtain ⟨hfits, hopen⟩ := decodeStep_brackets h.open_iff h.fits p
      exact ⟨hs.wf, hs.cable ▸ h.cable, by rw [htags]; exact hfits,
        by rw [htags, hsysex]; exact hopen⟩
  · rw [um9RxPacket_misrouted hcable]
    exact ⟨h.wf.stat _, h.cable, h.fits, h.open_iff⟩

/-- **One operation** that keeps the runs keeps the law. -/
theorem Bracketed.step {taken : List RxMsg} {s : RxStream} (h : Bracketed taken s)
    {op : BufferOp EventPacket} (hop : KeepsRuns s op) :
    Bracketed (taken ++ (rxMachine.step s op).2) (rxMachine.step s op).1 := by
  cases op with
  | feed p =>
    show Bracketed (taken ++ []) (um9RxPacket s p.bytes).1
    rw [List.append_nil]
    exact h.feed hop
  | take =>
    cases hq : s.queue with
    | nil =>
      have hnone : rxMachine.step s .take = (s, []) := by
        simp only [rxMachine, um9RxMessage_nil hq]
      rw [hnone, List.append_nil]
      exact h
    | cons m q =>
      obtain ⟨s', htake, hwf, hq', hcable, hsysex, -⟩ := um9RxMessage_cons h.wf hq
      have hsome : rxMachine.step s .take = (s', [m]) := by
        simp only [rxMachine, htake]
      have hall : taken ++ [m] ++ s'.queue = taken ++ s.queue := by
        rw [hq', hq, List.append_assoc]
        rfl
      rw [hsome]
      exact ⟨hwf, hcable ▸ h.cable, by rw [hall]; exact h.fits,
        by rw [hall, hsysex]; exact h.open_iff⟩

theorem um9RxInit_bracketed (s₀ : RxStream) (cable : ℕ) : Bracketed [] (um9RxInit s₀ cable) where
  wf := um9RxInit_wf s₀ cable
  cable := by
    show (if cable ≤ um9MaxCable then cable else 0) < 16
    split_ifs with h
    · exact Nat.lt_succ_of_le h
    · decide
  fits := .nil
  open_iff := iff_of_false not_open_nil Bool.false_ne_true

/-- **A run** in which every operation keeps the runs. -/
theorem rxMachine_bracketed (s₀ : RxStream) (cable : ℕ) {ops : List (BufferOp EventPacket)}
    (h : rxMachine.Along KeepsRuns (um9RxInit s₀ cable) ops) :
    Bracketed (rxMachine.out (um9RxInit s₀ cable) ops)
      (rxMachine.final (um9RxInit s₀ cable) ops) :=
  Mealy.Along.inv (I := Bracketed) (fun _ _ _ hI hop => Bracketed.step hI hop)
    (um9RxInit_bracketed s₀ cable) h

/-! ## Exactly these runs -/

/-- Taking again and again is the client's loop. -/
theorem rxMachine_takes (n : ℕ) (s : RxStream) :
    rxMachine.out s (List.replicate n .take) = (um9RxTake n s).2 ∧
      rxMachine.final s (List.replicate n .take) = (um9RxTake n s).1 := by
  induction n generalizing s with
  | zero => exact ⟨rfl, rfl⟩
  | succ n ih =>
    rw [List.replicate_succ, Mealy.out_cons, Mealy.final_cons, um9RxTake]
    cases hm : um9RxMessage s with
    | none =>
      have hnone : rxMachine.step s .take = (s, []) := by
        simp only [rxMachine, hm]
      have hsame : um9RxTake n s = (s, []) := by
        cases n with
        | zero => rfl
        | succ n => rw [um9RxTake, hm]
      rw [hnone]
      obtain ⟨hout, hfinal⟩ := ih s
      rw [hsame] at hout hfinal
      exact ⟨hout, hfinal⟩
    | some r =>
      obtain ⟨m, s'⟩ := r
      have hsome : rxMachine.step s .take = (s', [m]) := by
        simp only [rxMachine, hm]
      rw [hsome]
      obtain ⟨hout, hfinal⟩ := ih s'
      exact ⟨congrArg (m :: ·) hout, hfinal⟩

theorem along_takes {n : ℕ} {s : RxStream} :
    rxMachine.Along KeepsRuns s (List.replicate n .take) := by
  induction n generalizing s with
  | zero => trivial
  | succ n ih => exact ⟨trivial, ih⟩

/-- A CIN 4 packet of a cable. -/
def continuePacket (cable : ℕ) : EventPacket := .ofNibbles cable cinSysexStart [0xF0]

/-- An empty stream makes a chunk of it, whose tag is in the SysEx bit. -/
theorem um9RxPacket_continue {s : RxStream} (hs : s.Wf) (hc : s.cable < 16) (hq : s.queue = []) :
    ∃ m, rxMachine.out s [.feed (continuePacket s.cable), .take] = [m] ∧
      m.sysex = if s.inSysex then .mid else .start := by
  have hcable : (continuePacket s.cable).cable = s.cable := EventPacket.cable_ofNibbles hc _ _
  have hcin : (continuePacket s.cable).cin = cinSysexStart :=
    EventPacket.cin_ofNibbles hc (by decide) _
  have hs' := um9RxPacket_stepped hs hcable
  have hqueue := hs'.queue
  rw [RxStream.queue_stat, hq, decodeStep_start _ hcin] at hqueue
  obtain ⟨s', htake, -⟩ := um9RxMessage_cons hs'.wf hqueue
  refine ⟨Message.rx ⟨(continuePacket s.cable).payload, if s.inSysex then .mid else .start⟩, ?_,
    Message.sysex_rx _⟩
  rw [Mealy.out_cons, Mealy.out_cons, Mealy.out_nil, List.append_nil]
  show [] ++ (rxMachine.step (um9RxPacket s (continuePacket s.cable).bytes).1 .take).2 = _
  simp only [rxMachine, htake, List.nil_append]

/-- **A run that loses a mark**: taking what is pending and one more chunk breaks the
    law. -/
theorem Bracketed.lost {taken : List RxMsg} {s : RxStream} (h : Bracketed taken s)
    {op : BufferOp EventPacket} (hop : ¬KeepsRuns s op) :
    ∃ more, rxMachine.Along KeepsRuns (rxMachine.step s op).1 more ∧
      ¬WellBracketed ((taken ++ (rxMachine.step s op).2 ++
        rxMachine.out (rxMachine.step s op).1 more).map RxMsg.sysex) := by
  cases op with
  | take => exact absurd trivial hop
  | feed p =>
    simp only [KeepsRuns, Classical.not_imp] at hop
    obtain ⟨hcable, hfull, hmoves⟩ := hop
    rw [← decodeStep_fst_eq_iff] at hmoves
    have hs := um9RxPacket_stepped h.wf hcable
    have hqueue := hs.queue
    rw [RxStream.queue_stat, RxStream.length_queue, hfull, Nat.sub_self, List.take_zero,
      List.append_nil] at hqueue
    -- everything that is pending is taken, and a chunk with the wrong tag after it
    obtain ⟨hall, hwf, hempty, hcable', hsysex, -⟩ := um9RxTakeAll_spec hs.wf
    rw [um9RxTakeAll] at hall hwf hempty hcable' hsysex
    obtain ⟨hout, hfinal⟩ := rxMachine_takes (um9RxPacket s p.bytes).1.count
      (um9RxPacket s p.bytes).1
    rw [hall, hqueue] at hout
    generalize (um9RxTake (um9RxPacket s p.bytes).1.count (um9RxPacket s p.bytes).1).1 = s'
      at hwf hempty hcable' hsysex hfinal
    have hc' : s'.cable < 16 := by
      rw [hcable', hs.cable]
      exact h.cable
    obtain ⟨m, hchunk, htag⟩ := um9RxPacket_continue hwf hc' hempty
    refine ⟨List.replicate (um9RxPacket s p.bytes).1.count BufferOp.take ++
      [BufferOp.feed (continuePacket s'.cable), BufferOp.take], ?_, ?_⟩
    · have hroom : s'.count ≠ um9RxQueue := by
        rw [RxStream.queue_eq_nil.1 hempty]
        decide
      refine Mealy.along_append.2 ⟨along_takes, ?_⟩
      show rxMachine.Along KeepsRuns (rxMachine.final (um9RxPacket s p.bytes).1 _) _
      rw [hfinal]
      exact ⟨fun _ hfull' => absurd hfull' hroom, trivial, trivial⟩
    · show ¬WellBracketed ((taken ++ [] ++ rxMachine.out (um9RxPacket s p.bytes).1 _).map _)
      rw [Mealy.out_append, hout, hfinal, hchunk, List.append_nil, ← List.append_assoc,
        List.map_append, List.map_singleton, htag, hsysex, hs.inSysex, wellBracketed_iff]
      intro hlaw
      obtain ⟨hmid, hstart⟩ := hlaw ((taken ++ s.queue).map RxMsg.sysex) _ [] rfl
      rw [h.open_iff] at hmid hstart
      change (decodeStep s.inSysex p).1 ≠ s.inSysex at hmoves
      cases hb : s.inSysex with
      | false =>
        rw [hb] at hmoves hmid
        have hmoved : (decodeStep false p).1 = true := by simpa using hmoves
        exact Bool.false_ne_true (hmid (if_pos hmoved))
      | true =>
        rw [hb] at hmoves hstart
        have hmoved : (decodeStep true p).1 = false := by simpa using hmoves
        exact hstart (if_neg (by rw [hmoved]; exact Bool.false_ne_true)) rfl


/-- **The tags are well bracketed** in every run in which no packet that starts or ends
    a SysEx run is fed while the queue is full, and no condition on the runs that
    allows more will do: after one such packet a run goes on without another and
    breaks the law. -/
theorem rx_wellBracketed (s₀ : RxStream) (cable : ℕ) (ops : List (BufferOp EventPacket)) :
    let s := um9RxInit s₀ cable
    (rxMachine.Along KeepsRuns s ops →
        WellBracketed ((rxMachine.out s ops).map RxMsg.sysex)) ∧
      ∀ op, rxMachine.Along KeepsRuns s ops → ¬KeepsRuns (rxMachine.final s ops) op →
        ∃ more, rxMachine.Along KeepsRuns (rxMachine.final s (ops ++ [op])) more ∧
          ¬WellBracketed ((rxMachine.out s (ops ++ op :: more)).map RxMsg.sysex) := by
  intro s
  constructor
  · intro h
    have hall := (rxMachine_bracketed s₀ cable h).fits
    rw [List.map_append] at hall
    exact wellBracketed_iff.2 hall.left
  · intro op h hop
    obtain ⟨more, hmore, hlaw⟩ := (rxMachine_bracketed s₀ cable h).lost hop
    refine ⟨more, ?_, ?_⟩
    · rw [Mealy.final_append]
      exact hmore
    · rw [Mealy.out_append, Mealy.out_cons, ← List.append_assoc]
      exact hlaw

/-- Sixteen timing clocks fill the queue, the start of a SysEx run is dropped, and the
    chunk after it is taken. -/
def timingClock : EventPacket := ⟨0x0F, 0xF8, 0, 0⟩
def lostStart : List (BufferOp EventPacket) :=
  List.replicate 16 (BufferOp.feed timingClock) ++
    [BufferOp.feed (EventPacket.mk 0x04 0xF0 1 2), BufferOp.take,
      BufferOp.feed (EventPacket.mk 0x04 3 4 5)] ++ List.replicate 16 BufferOp.take

/-- It is taken as an inner chunk. -/
theorem not_wellBracketed_lostStart :
    ¬WellBracketed ((rxMachine.out (um9RxInit default 0) lostStart).map RxMsg.sysex) := by
  have htags : (rxMachine.out (um9RxInit default 0) lostStart).map RxMsg.sysex =
      List.replicate 16 SysexPos.none ++ SysexPos.mid :: [] := by decide
  rw [htags]
  rintro ⟨hmid, -⟩
  obtain ⟨a, b, hpre, -⟩ := hmid _ _ rfl
  have hmem : SysexPos.start ∈ List.replicate 16 SysexPos.none := by
    rw [hpre]
    exact List.mem_append_right _ List.mem_cons_self
  exact absurd hmem (by decide)

end Usbmidi9
