/-
  USBMIDI9 — logs of the class driver's machine, and transactions without their nesting.

  The log of a transaction is what it passes to the library and gets from it; the log
  functions follow the machine's own, branch by branch (`transactionLog_trace`).

  `FlatStep` are the steps that transactions consist of: a call is issued, the
  outstanding call completes, the machine stops.  A transaction, however deep the
  library nests it, is a run of such steps with the same log (`transaction_flat`), so
  what the steps keep, transactions and completions keep (`FlatRun.inv`).
-/
import Usbmidi9.Classic.Order
import Usbmidi9.Classic.Machine

namespace Usbmidi9

/-! ## Logs of the machine -/

/-- The call that a stage makes. -/
def stageCall (stage : UInt32) : UslCall :=
  if stage = kAllocRingState then .allocMem
  else if stage = kConfigureInterfaceState then .configureInterface
  else if stage = kFindBulkInPipeState then .findNextPipe
  else if stage = kAllocReadBufferState then .allocMem
  else .bulkRead

section
variable (usl : ℕ → UslAnswer) (index : ℕ)

/-- What the switch of the completion tells the library. -/
def stageLog (m : Machine) : List UslEntry :=
  if m.refcon &&& kStageMask = kReadBulkInPipeState ∧
      m.inst.pb.usbStatus = usbPipeStalledError then
    [.clearStall m.inst.bulkInPipe]
  else []

/-- The log of `completionProc`. -/
def completionLog (initiateLog : Machine → List UslEntry) (id : ℕ) (m : Machine) :
    List UslEntry :=
  .done id m.inst.pb :: (stageLog m ++
    let m := stageDone index id m
    if m.refcon &&& kReturnFromDriver = 0 then
      if m.inst.removing = false then initiateLog m else []
    else [.stop])

/-- The log of `callUsl`. -/
def callLog (initiateLog : Machine → List UslEntry) (id : ℕ) (m : Machine) : List UslEntry :=
  match usl id with
  | .pending => []
  | .completed r _ => completionLog index initiateLog id (m.finish id r)
  | .noErr _ => []
  | .error _ => []

/-- The log of `callReturned`. -/
def returnedLog (initiateLog : Machine → List UslEntry) (id : ℕ) (token : UInt32) (m : Machine)
    (err : ℤ) : List UslEntry :=
  if err = usbPending then []
  else if m.inst.callInFlight ≠ token then []
  else if err = usbNoErr ∧ m.refcon &&& kReturnFromDriver = 0 then
    completionLog index initiateLog id (m.clearPending.updPB fun pb =>
      { pb with usbStatus := usbNoErr, usbData := [] })
  else if err = usbNoErr then []
  else [.stop]

/-- The log of `initiateTransaction`. -/
def transactionLog : ℕ → Machine → List UslEntry
  | 0, _ => []
  | fuel + 1, m =>
    if m.inst.removing then [.stop]
    else if maxSyncDepth < m.enter.inst.transDepth then [.stop]
    else
      let issued := m.enter.refcon &&& kStageMask
      let m := m.enter.takeToken
      let token := m.inst.callToken
      match stagePB issued m.inst with
      | none => [.stop]
      | some pb =>
        let id := m.nextId
        let m := (m.updPB fun _ => pb).issue issued
        let r := callUsl usl index (initiateTransaction usl index fuel) id m
        .issue id (stageCall issued) pb :: (callLog usl index (transactionLog fuel) id m ++
          returnedLog index (transactionLog fuel) id token r.1 r.2)

/-- The log of `completeCall`. -/
def completeLog (id : ℕ) (r : UslResult) (m : Machine) : List UslEntry :=
  completionLog index (transactionLog usl index transFuel) id (m.finish id r)

end

/-! ## Logs and traces -/

/-- What a log and a trace both tell: an issued call, a completed one, a stall that is
    cleared. -/
inductive UslMark where
  | issue (id : ℕ) (call : UslCall)
  | done (id : ℕ)
  | clearStall (pipe : ℕ)

/-- The mark of an entry of a log. -/
def UslEntry.mark : UslEntry → Option UslMark
  | .issue id call _ => some (.issue id call)
  | .done id _ => some (.done id)
  | .clearStall pipe => some (.clearStall pipe)
  | .stop => none

/-- The mark of an entry of a trace. -/
def Entry.mark : Entry → Option UslMark
  | .issue id _ stage _ => some (.issue id (stageCall stage))
  | .complete id => some (.done id)
  | .clearStall pipe => some (.clearStall pipe)
  | _ => none

/-- The log `L` has the calls, completions and cleared stalls by which the trace of `m'` is
    longer. -/
def Logs (m m' : Machine) (L : List UslEntry) : Prop :=
  ∃ new, m'.trace = m.trace ++ new ∧ new.filterMap Entry.mark = L.filterMap UslEntry.mark

namespace Logs
variable {m m' m'' : Machine} {L L' : List UslEntry}

theorem refl (h : m'.trace = m.trace) : Logs m m' [] := ⟨[], by simp [h], rfl⟩

theorem trans (h : Logs m m' L) (h' : Logs m' m'' L') : Logs m m'' (L ++ L') := by
  obtain ⟨new, hn, hL⟩ := h
  obtain ⟨new', hn', hL'⟩ := h'
  exact ⟨new ++ new', by rw [hn', hn, List.append_assoc], by
    rw [List.filterMap_append, List.filterMap_append, hL, hL']⟩

/-- Only the traces count. -/
theorem congr {m₁ m₁' : Machine} (h : Logs m m' L) (hm : m₁.trace = m.trace)
    (hm' : m₁'.trace = m'.trace) : Logs m₁ m₁' L := by
  obtain ⟨new, hn, hL⟩ := h
  exact ⟨new, by rw [hm', hm, hn], hL⟩

theorem stop (h : m'.trace = m.trace) : Logs m m' [.stop] := ⟨[], by simp [h], rfl⟩

/-- An entry that has no mark. -/
theorem unmarked (h : m'.trace = m.trace) {e : Entry} (he : e.mark = none) :
    Logs m (m'.log e) [] := by
  refine ⟨[e], congrArg (· ++ [e]) h, ?_⟩
  rw [List.filterMap_cons_none he]
  rfl

end Logs

section
variable {usl : ℕ → UslAnswer} {index : ℕ} {initiate : Machine → Machine}
  {initiateLog : Machine → List UslEntry}

/-- The read stage clears a stall, as its log says. -/
theorem readCompleted_logs (index id : ℕ) (m : Machine) : Logs m (readCompleted index id m)
    (if m.inst.pb.usbStatus = usbPipeStalledError then [.clearStall m.inst.bulkInPipe] else []) := by
  have hclear : ∀ m' : Machine, m'.inst.bulkInPipe = m.inst.bulkInPipe →
      Logs m' (if m.inst.pb.usbStatus = usbPipeStalledError then
          m'.log (.clearStall m'.inst.bulkInPipe) else m')
        (if m.inst.pb.usbStatus = usbPipeStalledError then
          [.clearStall m.inst.bulkInPipe] else []) := by
    intro m' hpipe
    split_ifs
    · exact ⟨[_], rfl, by rw [hpipe]; rfl⟩
    · exact .refl rfl
  unfold readCompleted
  refine .congr (.trans (L := []) ?_ (hclear _ ?_)) rfl rfl
  · simp only
    split_ifs
    · split
      · exact .unmarked rfl rfl
      · exact .refl rfl
    · exact .refl rfl
  · simp only
    split_ifs
    · split <;> rfl
    · rfl

theorem completionStage_logs (index id : ℕ) (m : Machine) :
    Logs m (completionStage index id m) (stageLog m) := by
  have hstages : kAllocRingState ≠ kReadBulkInPipeState ∧
      kConfigureInterfaceState ≠ kReadBulkInPipeState ∧
      kFindBulkInPipeState ≠ kReadBulkInPipeState ∧
      kAllocReadBufferState ≠ kReadBulkInPipeState := by decide
  have hread : Logs m (readCompleted index id (m.upd fun inst => { inst with callInFlight := 0 }))
      (if m.inst.pb.usbStatus = usbPipeStalledError then [.clearStall m.inst.bulkInPipe] else []) :=
    readCompleted_logs index id (m.upd fun inst => { inst with callInFlight := 0 })
  unfold completionStage stageLog
  generalize m.refcon &&& kStageMask = st
  simp only
  split_ifs with h0 hlog h1 hlog h2 hlog h3 hlog h4 hlog hlog
  · exact absurd (h0.symm.trans hlog.1) hstages.1
  · exact .refl rfl
  · exact absurd (h1.symm.trans hlog.1) hstages.2.1
  · exact .refl rfl
  · exact absurd (h2.symm.trans hlog.1) hstages.2.2.1
  · exact .refl rfl
  · exact absurd (h3.symm.trans hlog.1) hstages.2.2.2
  · exact .refl rfl
  · rwa [if_pos hlog.2] at hread
  · rwa [if_neg fun hstall => hlog ⟨h4, hstall⟩] at hread
  · exact absurd hlog.1 h4
  · exact .refl rfl

theorem completionProc_logs (hinit : ∀ m, Logs m (initiate m) (initiateLog m)) (id : ℕ)
    (m : Machine) :
    Logs m (completionProc initiate index id m) (completionLog index initiateLog id m) := by
  have hdone : Logs m (m.log (.complete id)) [.done id m.inst.pb] := ⟨[.complete id], rfl, rfl⟩
  have hstage : Logs (m.log (.complete id)) (stageDone index id m) (stageLog m) :=
    (completionStage_logs index id (m.log (.complete id))).congr rfl rfl
  refine hdone.trans (hstage.trans ?_)
  unfold completionProc
  simp only
  by_cases hret : (stageDone index id m).refcon &&& kReturnFromDriver = 0
  · by_cases hrem : (stageDone index id m).inst.removing = false
    · rw [if_pos ⟨hret, hrem⟩, if_pos hret, if_pos hrem]
      exact hinit _
    · rw [if_neg fun h => hrem h.2, if_pos hret, if_neg hrem]
      exact .refl rfl
  · rw [if_neg fun h => hret h.1, if_neg hret]
    exact .stop rfl

theorem callUsl_logs (hinit : ∀ m, Logs m (initiate m) (initiateLog m)) (id : ℕ) (m : Machine) :
    Logs m (callUsl usl index initiate id m).1 (callLog usl index initiateLog id m) := by
  unfold callUsl callLog
  cases usl id with
  | pending => exact .refl rfl
  | completed r ret => exact (completionProc_logs hinit id (m.finish id r)).congr rfl rfl
  | noErr r => exact .refl rfl
  | error e => exact .refl rfl

theorem callReturned_logs (hinit : ∀ m, Logs m (initiate m) (initiateLog m)) (id : ℕ)
    (token : UInt32) (m : Machine) (err : ℤ) :
    Logs m (callReturned index initiate id token m err)
      (returnedLog index initiateLog id token m err) := by
  unfold callReturned returnedLog
  split_ifs
  · exact .refl rfl
  · exact .refl rfl
  · exact (completionProc_logs hinit id _).congr rfl rfl
  · exact .refl rfl
  · exact .stop rfl

/-- **The log of a transaction** has the calls and completions of its trace. -/
theorem transactionLog_trace (fuel : ℕ) (m : Machine) :
    Logs m (initiateTransaction usl index fuel m) (transactionLog usl index fuel m) := by
  induction fuel generalizing m with
  | zero => exact .refl rfl
  | succ fuel ih =>
    unfold initiateTransaction transactionLog
    simp only
    split_ifs
    · exact .stop rfl
    · exact ⟨[], (List.append_nil _).symm, rfl⟩
    · rcases hpb : stagePB (m.enter.refcon &&& kStageMask) m.enter.takeToken.inst with _ | pb
      · exact ⟨[], (List.append_nil _).symm, rfl⟩
      · have hissue : Logs m (Machine.issue (m.enter.takeToken.updPB fun _ => pb)
            (m.enter.refcon &&& kStageMask))
            [.issue m.nextId (stageCall (m.enter.refcon &&& kStageMask)) pb] := ⟨[_], rfl, rfl⟩
        exact (hissue.trans ((callUsl_logs ih _ _).trans
          (callReturned_logs ih _ _ _ _))).congr rfl rfl

end

/-! ## Flat runs -/

/-- The outstanding call has completed with this parameter block. -/
def Machine.finished (m : Machine) (pb : UsbPB) : Machine :=
  { m with inst := { m.inst with pb := pb }, calls := [] }

/-- What a completion tells the library up to its last statement. -/
def doneLog (index id : ℕ) (m : Machine) : List UslEntry :=
  .done id m.inst.pb :: (stageLog m ++
    if (stageDone index id m).refcon &&& kReturnFromDriver = 0 then [] else [.stop])

/-- The steps that transactions consist of, with what they log. -/
inductive FlatStep (index : ℕ) : Machine → List UslEntry → Machine → Prop
  /-- a stage issues its call -/
  | issue {m : Machine} {pb : UsbPB} (hcalls : m.calls = []) (hr : m.inst.removing = false)
      (hs : IsStage m.refcon) (hpb : stagePB m.refcon m.inst = some pb) :
      FlatStep index m [.issue m.nextId (stageCall m.refcon) pb]
        ((m.updPB fun _ => pb).issue m.refcon)
  /-- the outstanding call completes -/
  | done {m : Machine} {c : Call} {pb : UsbPB} (hcalls : m.calls = [c])
      (hw : pb.usbRefcon &&& kStageMask = c.stage) :
      FlatStep index m (doneLog index c.id (m.finished pb)) (stageDone index c.id (m.finished pb))
  /-- the machine stops; a call that is outstanding was refused -/
  | stop (m : Machine) :
      FlatStep index m [.stop] (Machine.setRefcon { m with calls := [] } kReturnFromDriver)
  /-- the depth and the tokens change -/
  | tokens (m : Machine) (depth : ℕ) (token inFlight : UInt32) :
      FlatStep index m [] (m.upd fun inst =>
        { inst with transDepth := depth, callToken := token, callInFlight := inFlight })

/-- A run of such steps, with its log. -/
inductive FlatRun (index : ℕ) (m : Machine) : List UslEntry → Machine → Prop
  | refl : FlatRun index m [] m
  | step {m' m'' : Machine} {L L' : List UslEntry} (h : FlatRun index m L m')
      (hs : FlatStep index m' L' m'') : FlatRun index m (L ++ L') m''

namespace FlatRun
variable {index : ℕ} {m m' m'' : Machine} {L L' : List UslEntry}

theorem of_step (hs : FlatStep index m L m') : FlatRun index m L m' := .step .refl hs

theorem trans (h : FlatRun index m L m') (h' : FlatRun index m' L' m'') :
    FlatRun index m (L ++ L') m'' := by
  induction h' with
  | refl => rwa [List.append_nil]
  | step _ hs ih => rw [← List.append_assoc]; exact ih.step hs

/-- The depth and the tokens change before and after. -/
theorem of_tokens {depth : ℕ} {token inFlight : UInt32}
    (h : FlatRun index (m.upd fun inst =>
      { inst with transDepth := depth, callToken := token, callInFlight := inFlight }) L m') :
    FlatRun index m L m' := (of_step (.tokens m depth token inFlight)).trans h

theorem leave (h : FlatRun index m L m') : FlatRun index m L m'.leave := by
  rw [← List.append_nil L]
  exact h.step (.tokens m' (m'.inst.transDepth - 1) m'.inst.callToken m'.inst.callInFlight)

/-- **The invariant rule**, with the log so far. -/
theorem inv {I : List UslEntry → Machine → Prop} (h : FlatRun index m L m') (h₀ : I [] m)
    (hstep : ∀ L m L' m', I L m → FlatStep index m L' m' → I (L ++ L') m') : I L m' := by
  induction h with
  | refl => exact h₀
  | step _ hs ih => exact hstep _ _ _ _ ih hs

end FlatRun

section
variable {usl : ℕ → UslAnswer} {index : ℕ} {initiate : Machine → Machine}
  {initiateLog : Machine → List UslEntry}

/-- A completion is one step, and the transaction that it ends with. -/
theorem completionProc_flat {m : Machine} {c : Call} {pb : UsbPB} (hcalls : m.calls = [c])
    (hw : pb.usbRefcon &&& kStageMask = c.stage)
    (hinit : m.inst.removing = false →
      (stageDone index c.id (m.finished pb)).refcon &&& kReturnFromDriver = 0 →
        FlatRun index (stageDone index c.id (m.finished pb))
          (initiateLog (stageDone index c.id (m.finished pb)))
          (initiate (stageDone index c.id (m.finished pb)))) :
    FlatRun index m (completionLog index initiateLog c.id (m.finished pb))
      (completionProc initiate index c.id (m.finished pb)) := by
  have hdone : FlatRun index m (doneLog index c.id (m.finished pb))
      (stageDone index c.id (m.finished pb)) := .of_step (.done hcalls hw)
  have hrem : (stageDone index c.id (m.finished pb)).inst.removing = m.inst.removing :=
    congrArg Client.removing (stageDone_quiet index c.id (m.finished pb)).client
  unfold completionLog completionProc
  simp only [hrem]
  unfold doneLog at hdone
  by_cases hret : (stageDone index c.id (m.finished pb)).refcon &&& kReturnFromDriver = 0
  · rw [if_pos hret] at hdone
    rw [if_pos hret]
    cases hr : m.inst.removing with
    | true => simpa only [hr, hret, Bool.true_eq_false, and_false, if_false] using hdone
    | false =>
      have hall := hdone.trans (hinit hr hret)
      simpa only [hret, and_self, if_true, List.append_nil, List.cons_append] using hall
  · rw [if_neg hret] at hdone
    rw [if_neg hret, if_neg fun h => hret h.1]
    exact hdone

/-- What follows a call that completed while it was issued. -/
theorem callReturned_flat {m m' : Machine} {token : UInt32} (h : Moved 1 m m')
    (ht : m.inst.callToken = token) (id : ℕ) (err : ℤ) :
    FlatRun index m' (returnedLog index initiateLog id token m' err)
      (callReturned index initiate id token m' err) := by
  unfold callReturned returnedLog
  split_ifs with hpend hf hself hok
  · exact .refl
  · exact .refl
  · have hstop := (h.returned ht).resolve_right hf
    rw [hstop.refcon] at hself
    exact absurd hself.2 (by decide)
  · exact .refl
  · have hstop := (h.returned ht).resolve_right hf
    have hsame : { m' with calls := [] } = m' := by rw [← hstop.calls]
    have hrun : FlatRun index m' [.stop]
        (Machine.setRefcon { m' with calls := [] } kReturnFromDriver) := .of_step (.stop m')
    rwa [hsame] at hrun

/-- What a transaction may assume of those that it nests. -/
def Nests (index : ℕ) (initiate : Machine → Machine) (initiateLog : Machine → List UslEntry)
    (depth : ℕ) : Prop :=
  ∀ m : Machine, m.inst.transDepth = depth → m.inst.removing = false → Ready m → Clean m →
    Moved 1 m (initiate m) ∧ FlatRun index m (initiateLog m) (initiate m)

/-- The completion of the outstanding call. -/
theorem Due.completion_flat {m : Machine} {c : Call} {pb : UsbPB}
    (h : Due (m.finished pb) c.id c.stage) (hcalls : m.calls = [c]) (hr : m.inst.removing = false)
    (hinit : Nests index initiate initiateLog m.inst.transDepth) :
    FlatRun index m (completionLog index initiateLog c.id (m.finished pb))
      (completionProc initiate index c.id (m.finished pb)) := by
  refine completionProc_flat hcalls (show pb.usbRefcon &&& kStageMask = c.stage from h.word) ?_
  intro _ hret
  have hq := stageDone_quiet index c.id (m.finished pb)
  have hrem : (stageDone index c.id (m.finished pb)).inst.removing = false :=
    (congrArg Client.removing hq.client).trans hr
  obtain ⟨hclean, hstop | hready⟩ := stageDone_next index h
  · rw [hstop.refcon] at hret
    exact absurd hret (by decide)
  · exact (hinit _ hq.depth hrem hready hclean).2

/-- The outstanding call leaves the library with some parameter block. -/
theorem Machine.finish_finished {m : Machine} {c : Call} (h : m.calls = [c]) (r : UslResult) :
    ∃ pb, m.finish c.id r = m.finished pb ∧ pb.usbRefcon = m.refcon := by
  have hempty : m.calls.filter (·.id ≠ c.id) = [] := by simp [h]
  refine ⟨(m.finish c.id r).inst.pb, ?_, rfl⟩
  rw [Machine.finished, ← hempty]
  rfl

/-- **Every answer of the library** to a call that was just issued. -/
theorem issued_flat {m : Machine} {c : Call} (hb : Busy m c) (hc : Clean m)
    (hin : m.inst.callInFlight = m.inst.callToken) (hr : m.inst.removing = false)
    (hd : m.inst.transDepth ≤ maxSyncDepth)
    (hinit : Nests index initiate initiateLog m.inst.transDepth) :
    FlatRun index m
      (callLog usl index initiateLog c.id m ++
        returnedLog index initiateLog c.id m.inst.callToken (callUsl usl index initiate c.id m).1
          (callUsl usl index initiate c.id m).2)
      (callReturned index initiate c.id m.inst.callToken (callUsl usl index initiate c.id m).1
        (callUsl usl index initiate c.id m).2) := by
  unfold callUsl callLog
  rcases usl c.id with _ | ⟨r, ret⟩ | r | e
  · -- the call stays outstanding
    exact .refl
  · -- it completes before it returns
    have hdue := hb.due hc r
    have hmoved : Moved 1 (m.finish c.id r) (completionProc initiate index c.id (m.finish c.id r)) :=
      completionProc_moved index hdue hr hd fun m' hd' hr' hready hcl =>
        (hinit m' hd' hr' hready hcl).1
    refine .trans ?_ (callReturned_flat hmoved rfl c.id ret)
    obtain ⟨pb, heq, -⟩ := m.finish_finished hb.calls r
    simp only [heq] at hdue ⊢
    exact hdue.completion_flat hb.calls hr hinit
  · -- the driver completes it itself
    have hret : (m.finish c.id r).refcon &&& kReturnFromDriver = 0 := by
      show m.refcon &&& _ = 0
      rw [hb.refcon]; exact hb.isStage.flags.2.2.2.2.2.1
    have hin' : (m.finish c.id r).inst.callInFlight = m.inst.callToken := hin
    have hdue := (hb.due hc r).selfDriven hb.refcon
    simp only [callReturned, returnedLog, hin', hret, ne_eq, not_true_eq_false, if_false, and_self,
      if_true, List.nil_append]
    obtain ⟨pb, heq, -⟩ := m.finish_finished hb.calls r
    obtain ⟨pb', heq'⟩ : ∃ pb', ((m.finish c.id r).clearPending.updPB fun pb =>
        { pb with usbStatus := usbNoErr, usbData := [] }) = m.finished pb' := by
      rw [heq]
      exact ⟨_, rfl⟩
    rw [heq'] at hdue ⊢
    exact hdue.completion_flat hb.calls hr hinit
  · -- it is refused
    have hin' : (m.refuse c.id).inst.callInFlight = m.inst.callToken := hin
    have hempty : m.calls.filter (·.id ≠ c.id) = [] := by simp [hb.calls]
    have hstop : FlatRun index m [.stop] (Machine.setRefcon { m with calls := [] } kReturnFromDriver) :=
      .of_step (.stop m)
    simp only [callReturned, returnedLog, e.ne_pending, e.ne_noErr, hin', ne_eq, not_true_eq_false,
      if_false, false_and, List.nil_append]
    rw [← hempty] at hstop
    exact hstop

/-- **A transaction**, however deep it nests, is a flat run. -/
theorem transaction_flat {fuel : ℕ} {m : Machine} (hfuel : maxSyncDepth < fuel + m.inst.transDepth)
    (hd : m.inst.transDepth ≤ maxSyncDepth) (hr : m.inst.removing = false) (h : Ready m)
    (hc : Clean m) : FlatRun index m (transactionLog usl index fuel m)
      (initiateTransaction usl index fuel m) := by
  induction fuel generalizing m with
  | zero => omega
  | succ fuel ih =>
    unfold initiateTransaction transactionLog
    simp only [hr, Bool.false_eq_true, if_false]
    split_ifs with hdeep
    · have hstop : FlatRun index m [.stop]
          (Machine.setRefcon { m with calls := [] } kReturnFromDriver) := .of_step (.stop m)
      rw [← h.calls] at hstop
      exact hstop
    have hmask : m.enter.refcon &&& kStageMask = m.refcon := h.isStage.flags.1
    obtain ⟨pb, hpb, hw⟩ := stagePB_spec h.isStage m.enter.takeToken.inst
    simp only [hmask, hpb]
    obtain ⟨hbusy, hclean⟩ := issue_busy (m := m.enter.takeToken.updPB fun _ => pb) h.isStage
      h.calls hw h.pipe ⟨hc.issues, hc.nodup, hc.fresh⟩
    have hdeep' : m.inst.transDepth + 1 ≤ maxSyncDepth := Nat.le_of_not_lt hdeep
    have hnests : Nests index (initiateTransaction usl index fuel) (transactionLog usl index fuel)
        (m.inst.transDepth + 1) := fun m' hd' hr' hready hcl =>
      ⟨initiateTransaction_moved (by omega) (by omega) hr' hready hcl,
        ih (by omega) (by omega) hr' hready hcl⟩
    have hissue : FlatRun index m.enter.takeToken [.issue m.nextId (stageCall m.refcon) pb]
        ((m.enter.takeToken.updPB fun _ => pb).issue m.refcon) :=
      .of_step (.issue h.calls hr h.isStage hpb)
    exact .of_tokens (hissue.trans (issued_flat hbusy hclean rfl hr hdeep' hnests)).leave

/-- **The completion** of the outstanding call, too. -/
theorem completeCall_flat {m : Machine} (h : Settled m) (hr : m.inst.removing = false) {id : ℕ}
    (hid : id ∈ m.calls.map Call.id) (r : UslResult) :
    FlatRun index m (completeLog usl index id r m) (completeCall usl index id r m) := by
  obtain ⟨c, hb, rfl⟩ := h.busy hid
  have hdue := hb.due h.clean r
  have hdepth := h.depth
  unfold completeLog completeCall
  obtain ⟨pb, heq, -⟩ := m.finish_finished hb.calls r
  rw [heq] at hdue ⊢
  refine hdue.completion_flat hb.calls hr ?_
  intro m' hd' hr' hready hcl
  rw [hdepth] at hd'
  exact ⟨initiateTransaction_moved (by rw [hd']; decide) (by rw [hd']; decide) hr' hready hcl,
    transaction_flat (by rw [hd']; decide) (by rw [hd']; decide) hr' hready hcl⟩

end

end Usbmidi9
