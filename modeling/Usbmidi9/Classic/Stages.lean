/-
  USBMIDI9 — the stages of one interface connection, in order.

  `FlatStep.matches` is the simulation: whatever a machine does between two calls or with
  a completed one, `StageOrder` accepts its log, and the automaton stays where the machine
  is.  So it accepts the logs of transactions and completions (`transaction_sim`,
  `completeCall_sim`), for every answer of the library.
-/
import Usbmidi9.Classic.Flat

namespace Usbmidi9

/-! ## The simulation -/

/-- The refcon word of call number `n`. -/
def stageWord : ℕ → UInt32
  | 0 => kAllocRingState
  | 1 => kConfigureInterfaceState
  | 2 => kFindBulkInPipeState
  | 3 => kAllocReadBufferState
  | _ + 4 => kReadBulkInPipeState

theorem isStage_stageWord (n : ℕ) : IsStage (stageWord n) := by
  match n with
  | 0 | 1 | 2 | 3 => decide
  | _ + 4 => exact (by decide : IsStage kReadBulkInPipeState)

theorem stageCall_stageWord (n : ℕ) : stageCall (stageWord n) = callSeq n := by
  match n with
  | 0 | 1 | 2 | 3 => decide
  | _ + 4 => exact (by decide : stageCall kReadBulkInPipeState = .bulkRead)

theorem stageWord_eq_read {n : ℕ} : stageWord n = kReadBulkInPipeState ↔ 4 ≤ n := by
  match n with
  | 0 | 1 | 2 | 3 => exact iff_of_false (by decide) (by decide)
  | n + 4 => exact iff_of_true rfl (Nat.le_add_left 4 n)

/-- What an instance reads with. -/
def Instance.setup (inst : Instance) : ReadSetup :=
  ⟨inst.bulkInPipe, inst.maxPacketSize, inst.readBuffer⟩

abbrev Machine.setup (m : Machine) : ReadSetup := m.inst.setup

/-! ### The switch of the completion -/

section
variable {index id : ℕ} {m : Machine} {n : ℕ}

theorem stageLog_of_ne (hw : m.refcon &&& kStageMask = stageWord n)
    (h : ¬(4 ≤ n ∧ m.inst.pb.usbStatus = usbPipeStalledError)) : stageLog m = [] := by
  unfold stageLog
  rw [if_neg]
  rwa [hw, stageWord_eq_read]

theorem advance_success (inst : Instance) (h : inst.pb.usbStatus = usbNoErr) (next : UInt32)
    (f : Instance → Instance) :
    (inst.advance next f).pb.usbRefcon = next ∧ (inst.advance next f).setup = (f inst).setup := by
  rw [Instance.advance, if_pos h]
  exact ⟨rfl, rfl⟩

theorem advance_failure (inst : Instance) (h : inst.pb.usbStatus ≠ usbNoErr) (next : UInt32)
    (f : Instance → Instance) : (inst.advance next f).pb.usbRefcon = kReturnFromDriver := by
  rw [Instance.advance, if_neg h]

/-- The switch of the completion before the reads. -/
theorem completionStage_advance (index id : ℕ) (hn : n < 4)
    (hw : m.refcon &&& kStageMask = stageWord n) :
    ∃ f : Instance → Instance,
      completionStage index id m = (m.upd fun inst => { inst with callInFlight := 0 }).upd
        (·.advance (stageWord (n + 1)) f) ∧
      ∀ inst, (f inst).setup = inst.setup.collect (n + 1) inst.pb := by
  unfold completionStage
  rw [hw]
  match n with
  | 0 => exact ⟨_, if_pos rfl, fun _ => rfl⟩
  | 1 => exact ⟨_, (if_neg (by decide)).trans (if_pos rfl), fun _ => rfl⟩
  | 2 =>
    exact ⟨_, (if_neg (by decide)).trans ((if_neg (by decide)).trans (if_pos rfl)), fun _ => rfl⟩
  | 3 =>
    exact ⟨_, (if_neg (by decide)).trans ((if_neg (by decide)).trans ((if_neg (by decide)).trans
      (if_pos rfl))), fun _ => rfl⟩
  | n + 4 => omega

/-- The switch of the completion of a read. -/
theorem completionStage_read (index id : ℕ) (hn : 4 ≤ n)
    (hw : m.refcon &&& kStageMask = stageWord n) :
    (completionStage index id m).refcon = readNext m.inst.pb.usbStatus ∧
      (completionStage index id m).setup = m.setup := by
  have hread : completionStage index id m =
      readCompleted index id (m.upd fun inst => { inst with callInFlight := 0 }) := by
    unfold completionStage
    rw [hw, stageWord_eq_read.2 hn]
    rfl
  rw [hread]
  refine ⟨rfl, ?_⟩
  show (readCompleted index id _).inst.setup = _
  unfold readCompleted
  simp only
  split_ifs
  · split <;> rfl
  · rfl
  · split <;> rfl
  · rfl

theorem stageDone_word (index id : ℕ) (m : Machine) :
    (stageDone index id m).refcon =
      (completionStage index id (m.log (.complete id))).refcon &&& ~~~kCompletionPending := rfl

/-- A success goes on to the next stage with what it obtained. -/
theorem stageDone_success (index id : ℕ) (hw : m.refcon &&& kStageMask = stageWord n)
    (hok : m.inst.pb.usbStatus = usbNoErr) :
    (stageDone index id m).refcon = stageWord (n + 1) ∧
      (stageDone index id m).setup = m.setup.collect (n + 1) m.inst.pb := by
  suffices hstage : (completionStage index id (m.log (.complete id))).refcon = stageWord (n + 1) ∧
      (completionStage index id (m.log (.complete id))).setup =
        m.setup.collect (n + 1) m.inst.pb by
    rw [stageDone_word, hstage.1]
    exact ⟨(isStage_stageWord (n + 1)).flags.2.2.1, hstage.2⟩
  by_cases hn : n < 4
  · obtain ⟨f, hstage, hf⟩ :=
      completionStage_advance index id (m := m.log (.complete id)) hn hw
    rw [hstage]
    obtain ⟨hword, hsetup⟩ := advance_success
      { m.inst with callInFlight := 0 } hok (stageWord (n + 1)) f
    exact ⟨hword, hsetup.trans (hf _)⟩
  · obtain ⟨hword, hsetup⟩ :=
      completionStage_read index id (m := m.log (.complete id)) (not_lt.1 hn) hw
    rw [hword, hsetup]
    refine ⟨?_, ?_⟩
    · show readNext m.inst.pb.usbStatus = _
      rw [hok, stageWord_eq_read.2 (by omega)]
      rfl
    · rw [ReadSetup.collect, if_neg (by omega), if_neg (by omega)]
      rfl

/-- A stall of a read is cleared, and the read is made again. -/
theorem stageDone_stall (index id : ℕ) (hn : 4 ≤ n) (hw : m.refcon &&& kStageMask = stageWord n)
    (hstall : m.inst.pb.usbStatus = usbPipeStalledError) :
    (stageDone index id m).refcon = stageWord (n + 1) ∧
      (stageDone index id m).setup = m.setup := by
  obtain ⟨hword, hsetup⟩ :=
    completionStage_read index id (m := m.log (.complete id)) hn hw
  have hnext : readNext (m.log (.complete id)).inst.pb.usbStatus = stageWord (n + 1) := by
    show readNext m.inst.pb.usbStatus = _
    rw [hstall, stageWord_eq_read.2 (by omega)]
    rfl
  rw [stageDone_word, hword, hnext]
  exact ⟨(isStage_stageWord (n + 1)).flags.2.2.1, hsetup⟩

/-- Anything else stops the machine. -/
theorem stageDone_failure (index id : ℕ) (hw : m.refcon &&& kStageMask = stageWord n)
    (hok : m.inst.pb.usbStatus ≠ usbNoErr)
    (hstall : ¬(4 ≤ n ∧ m.inst.pb.usbStatus = usbPipeStalledError)) :
    (stageDone index id m).refcon = kReturnFromDriver := by
  suffices hstage : (completionStage index id (m.log (.complete id))).refcon = kReturnFromDriver by
    rw [stageDone_word, hstage]
    rfl
  by_cases hn : n < 4
  · obtain ⟨f, hstage, -⟩ :=
      completionStage_advance index id (m := m.log (.complete id)) hn hw
    rw [hstage]
    exact advance_failure { m.inst with callInFlight := 0 } hok (stageWord (n + 1)) f
  · obtain ⟨hword, -⟩ :=
      completionStage_read index id (m := m.log (.complete id)) (not_lt.1 hn) hw
    rw [hword]
    show readNext m.inst.pb.usbStatus = _
    rw [readNext, if_neg hok, if_neg fun h => hstall ⟨not_lt.1 hn, h⟩]

end

/-! ### Runs -/

/-- The automaton is where the machine is. -/
inductive Agrees (m : Machine) (p : StageOrder) : Prop
  | stopped (hm : Stopped m) (hp : p.phase = .stopped)
  | busy {c : Call} {n : ℕ} (hm : Busy m c) (hc : c.stage = stageWord n)
      (hp : p = ⟨n + 1, .waiting c.id (callSeq n), m.setup⟩)

/-- From `p`, the automaton accepts a log and ends where the machine is. -/
def Follows (p : StageOrder) (L : List UslEntry) (m : Machine) : Prop :=
  ∃ p', p.run L = some p' ∧ Agrees m p'

theorem Follows.append {p p₁ : StageOrder} {L L' : List UslEntry} {m : Machine}
    (h : p.run L = some p₁) (h' : Follows p₁ L' m) : Follows p (L ++ L') m := by
  obtain ⟨p', hrun, hm⟩ := h'
  exact ⟨p', by rw [StageOrder.run_append, h]; exact hrun, hm⟩

/-- The automaton looks at the parameter block and the setup. -/
theorem Agrees.congr {m m' : Machine} {p : StageOrder} (h : Agrees m p)
    (hcalls : m'.calls = m.calls) (hw : m'.refcon = m.refcon) (hsetup : m'.setup = m.setup) :
    Agrees m' p := by
  cases h with
  | stopped hm hp => exact .stopped ⟨hcalls.trans hm.calls, hw.trans hm.refcon⟩ hp
  | busy hm hc hp =>
    have hpipe : m'.inst.bulkInPipe = m.inst.bulkInPipe := congrArg ReadSetup.pipe hsetup
    refine .busy ⟨hcalls.trans hm.calls, hm.isStage, hw.trans hm.refcon, ?_⟩ hc ?_
    · rw [hpipe]; exact hm.pipe
    · rw [hsetup]; exact hp

theorem Follows.congr {p : StageOrder} {L : List UslEntry} {m m' : Machine} (h : Follows p L m)
    (hcalls : m'.calls = m.calls) (hw : m'.refcon = m.refcon) (hsetup : m'.setup = m.setup) :
    Follows p L m' := by
  obtain ⟨p', hrun, hm⟩ := h
  exact ⟨p', hrun, hm.congr hcalls hw hsetup⟩

/-- The same, also between two calls of a transaction. -/
inductive Matches (m : Machine) (p : StageOrder) : Prop
  | agrees (h : Agrees m p)
  | ready {n : ℕ} (hm : Ready m) (hw : m.refcon = stageWord n) (hp : p = ⟨n, .ready, m.setup⟩)

section
variable {index : ℕ} {m m' : Machine} {p : StageOrder} {L : List UslEntry}

/-- A stage issues its call with what the instance has. -/
theorem stagePB_admits {n : ℕ} {inst : Instance} {pb : UsbPB}
    (h : stagePB (stageWord n) inst = some pb) : inst.setup.Admits n pb := by
  match n with
  | 0 | 1 | 2 => exact ⟨fun h3 => absurd h3 (by decide), fun h4 => absurd h4 (by decide)⟩
  | 3 =>
    obtain rfl := Option.some.inj h
    exact ⟨fun _ => rfl, fun h4 => absurd h4 (by decide)⟩
  | n + 4 =>
    obtain rfl := Option.some.inj h
    exact ⟨fun h3 => by omega, fun _ => ⟨rfl, rfl, rfl⟩⟩

/-- A completion of the call that the automaton waits for. -/
theorem Busy.matches_done {c : Call} {n : ℕ} {pb : UsbPB} (hm : Busy m c)
    (hc : c.stage = stageWord n) (hw : pb.usbRefcon &&& kStageMask = c.stage) :
    ∃ p', StageOrder.run ⟨n + 1, .waiting c.id (callSeq n), m.setup⟩
        (doneLog index c.id (m.finished pb)) = some p' ∧
      Matches (stageDone index c.id (m.finished pb)) p' := by
  have hword : (m.finished pb).refcon &&& kStageMask = stageWord n := hw.trans hc
  have hnext := stageDone_stops_or_ready index c.id (m := m.finished pb) rfl hm.isStage hw hm.pipe
  have hready : (stageDone index c.id (m.finished pb)).refcon = stageWord (n + 1) →
      Ready (stageDone index c.id (m.finished pb)) := by
    intro hnew
    refine hnext.resolve_left fun hstop => ?_
    have hstage := isStage_stageWord (n + 1)
    rw [← hnew, hstop.refcon] at hstage
    exact absurd hstage (by decide)
  have hret : (stageDone index c.id (m.finished pb)).refcon = stageWord (n + 1) →
      (stageDone index c.id (m.finished pb)).refcon &&& kReturnFromDriver = 0 := by
    intro hnew
    rw [hnew]
    exact (isStage_stageWord (n + 1)).flags.2.2.2.2.1
  unfold doneLog
  by_cases hok : pb.usbStatus = usbNoErr
  · obtain ⟨hnew, hsetup⟩ := stageDone_success index c.id hword hok
    have hnone : stageLog (m.finished pb) = [] := stageLog_of_ne hword fun hst => by
      rw [show (m.finished pb).inst.pb.usbStatus = usbNoErr from hok] at hst
      exact absurd hst.2 (by decide)
    rw [hnone, if_pos (hret hnew)]
    refine ⟨⟨n + 1, .ready, m.setup.collect (n + 1) pb⟩, ?_, .ready (hready hnew) hnew ?_⟩
    · rw [StageOrder.run_cons]
      simp only [StageOrder.step, StageOrder.completed, if_true]
      rw [if_pos (show (m.finished pb).inst.pb.usbStatus = usbNoErr from hok)]
      rfl
    · rw [hsetup]
      rfl
  by_cases hstall : 4 ≤ n ∧ pb.usbStatus = usbPipeStalledError
  · obtain ⟨hnew, hsetup⟩ := stageDone_stall index c.id hstall.1 hword hstall.2
    have hclear : stageLog (m.finished pb) = [.clearStall m.inst.bulkInPipe] := by
      rw [stageLog, if_pos ⟨hword.trans (stageWord_eq_read.2 hstall.1), hstall.2⟩]
      rfl
    rw [hclear, if_pos (hret hnew)]
    refine ⟨⟨n + 1, .ready, m.setup⟩, ?_, .ready (hready hnew) hnew (by rw [hsetup]; rfl)⟩
    have hcleared : StageOrder.step ⟨n + 1, .stalled, m.setup⟩ (.clearStall m.inst.bulkInPipe) =
        some ⟨n + 1, .ready, m.setup⟩ := if_pos rfl
    rw [StageOrder.run_cons]
    simp only [StageOrder.step, StageOrder.completed, if_true]
    rw [if_neg (show ¬(m.finished pb).inst.pb.usbStatus = usbNoErr from hok),
      if_pos ⟨callSeq_eq_bulkRead.2 hstall.1, hstall.2⟩, List.append_nil, Option.bind_some,
      StageOrder.run_cons, hcleared]
    rfl
  · have hnew := stageDone_failure index c.id hword hok hstall
    have hstops : (stageDone index c.id (m.finished pb)).refcon &&& kReturnFromDriver ≠ 0 := by
      rw [hnew]
      decide
    rw [stageLog_of_ne hword hstall, if_neg hstops]
    refine ⟨⟨n + 1, .stopped, m.setup⟩, ?_, .agrees (.stopped ⟨?_, hnew⟩ rfl)⟩
    · rw [StageOrder.run_cons]
      simp only [StageOrder.step, StageOrder.completed, if_true]
      rw [if_neg (show ¬(m.finished pb).inst.pb.usbStatus = usbNoErr from hok),
        if_neg fun hread => hstall ⟨callSeq_eq_bulkRead.1 hread.1, hread.2⟩]
      rfl
    · exact (stageDone_quiet index c.id (m.finished pb)).calls

/-- **The simulation**, step by step. -/
theorem FlatStep.matches (hs : FlatStep index m L m') (h : Matches m p) :
    ∃ p', p.run L = some p' ∧ Matches m' p' := by
  cases hs with
  | issue hcalls hr hstage hpb =>
    rcases h with (⟨hm, -⟩ | ⟨hm, -, -⟩) | ⟨hm, hw, rfl⟩
    · rw [hm.refcon] at hstage
      exact absurd hstage (by decide)
    · rw [hm.calls] at hcalls
      cases hcalls
    · rename_i pb n
      obtain ⟨pb', hpb', hword⟩ := stagePB_spec hm.isStage m.inst
      obtain rfl := Option.some.inj (hpb'.symm.trans hpb)
      rw [hw] at hpb
      refine ⟨⟨n + 1, .waiting m.nextId (callSeq n), m.setup⟩, ?_,
        .agrees (.busy (c := ⟨m.nextId, m.refcon⟩) ⟨?_, hm.isStage, hword, hm.pipe⟩ hw rfl)⟩
      · rw [StageOrder.run_cons, hw, stageCall_stageWord]
        simp only [StageOrder.step]
        rw [if_pos ⟨trivial, stagePB_admits hpb⟩]
        rfl
      · simp [Machine.issue, Machine.updPB, Machine.upd, hm.calls]
  | done hcalls hw =>
    rcases h with (⟨hm, -⟩ | ⟨hm, hc, rfl⟩) | ⟨hm, -, -⟩
    · rw [hm.calls] at hcalls
      cases hcalls
    · rw [hm.calls] at hcalls
      obtain rfl := List.singleton_inj.1 hcalls
      exact hm.matches_done hc hw
    · rw [hm.calls] at hcalls
      cases hcalls
  | stop =>
    refine ⟨{ p with phase := .stopped }, ?_, .agrees (.stopped ⟨rfl, rfl⟩ rfl)⟩
    rcases h with (⟨-, hp⟩ | ⟨-, -, rfl⟩) | ⟨-, -, rfl⟩
    · obtain ⟨made, phase, setup⟩ := p
      obtain rfl : phase = .stopped := hp
      rfl
    · rfl
    · rfl
  | tokens depth token inFlight =>
    refine ⟨p, rfl, ?_⟩
    rcases h with h | ⟨hm, hw, hp⟩
    · exact .agrees (h.congr rfl rfl rfl)
    · exact .ready ⟨hm.calls, hm.isStage, hm.pipe⟩ hw hp

/-- A flat run that ends with an outstanding call, or stopped. -/
theorem FlatRun.follows (hrun : FlatRun index m L m') (h : Matches m p)
    (hend : (∃ c, Busy m' c) ∨ Stopped m') : Follows p L m' := by
  obtain ⟨p', hp, hm⟩ := hrun.inv (I := fun L m' => ∃ p', p.run L = some p' ∧ Matches m' p')
    ⟨p, rfl, h⟩ (by
      rintro L₁ m₁ L₂ m₂ ⟨p₁, hp₁, hm₁⟩ hs
      obtain ⟨p₂, hp₂, hm₂⟩ := hs.matches hm₁
      exact ⟨p₂, by rw [StageOrder.run_append, hp₁]; exact hp₂, hm₂⟩)
  refine ⟨p', hp, ?_⟩
  rcases hm with hm | ⟨hm, -, -⟩
  · exact hm
  · rcases hend with ⟨c, hb⟩ | hstop
    · have hcalls := hb.calls
      rw [hm.calls] at hcalls
      cases hcalls
    · have hstage := hm.isStage
      rw [hstop.refcon] at hstage
      exact absurd hstage (by decide)

end

section
variable {usl : ℕ → UslAnswer} {index : ℕ}

/-- **The simulation**: a transaction of an idle parameter block, before call number `n`. -/
theorem transaction_sim {fuel n : ℕ} {m : Machine}
    (hfuel : maxSyncDepth < fuel + m.inst.transDepth) (hd : m.inst.transDepth ≤ maxSyncDepth)
    (hr : m.inst.removing = false) (h : Ready m) (hc : Clean m) (hw : m.refcon = stageWord n) :
    Follows ⟨n, .ready, m.setup⟩ (transactionLog usl index fuel m)
      (initiateTransaction usl index fuel m) := by
  refine (transaction_flat hfuel hd hr h hc).follows (.ready h hw rfl) ?_
  have hmoved : Moved 1 m (initiateTransaction usl index fuel m) :=
    initiateTransaction_moved hfuel hd hr h hc
  obtain ⟨j, -, -, hs⟩ := hmoved.state
  exact hs.symm.imp_left fun ⟨c, hb, _⟩ => ⟨c, hb⟩

/-- A completion of the outstanding call. -/
theorem completeCall_sim {m : Machine} {p : StageOrder} (h : Settled m) (hp : Agrees m p)
    (hr : m.inst.removing = false) {id : ℕ} (hid : id ∈ m.calls.map Call.id) (r : UslResult) :
    Follows p (completeLog usl index id r m) (completeCall usl index id r m) := by
  refine (completeCall_flat h hr hid r).follows (.agrees hp) ?_
  have hkept : Kept (m.finish id r) (completeCall usl index id r m) :=
    completionProc_kept (initiateTransaction_kept _) _ _
  have hr' : (completeCall usl index id r m).inst.removing = false :=
    (congrArg Client.removing hkept.client).trans hr
  have hsettled : Settled (completeCall usl index id r m) := completeCall_settled h hid r
  rcases hsettled.state with hb | hstop | ⟨-, hrem⟩
  · exact .inl hb
  · exact .inr hstop
  · exact absurd (hr'.symm.trans hrem) (by decide)

end

end Usbmidi9
