/-
  USBMIDI9 — synchronous answers of the USB Services Library
  (`classic/usb_driver.c`).

  A call may complete while it is being issued, or succeed without a completion, and
  each completion issues the next call one level deeper.  The nesting depth is the
  measure: a level makes one call and at most one nested transaction
  (`initiateTransaction_issues`).

  `External` are the events that start the machine, as functions of the transaction
  they end with; `external_event` is the result.
-/
import Usbmidi9.Classic.Connection

namespace Usbmidi9

/-! ## The calls of a transaction -/

/-- A call was issued. -/
def Entry.isIssue : Entry → Bool
  | .issue .. => true
  | _ => false

/-- At most `k` calls were issued from `m` to `m'`. -/
def Issues (k : ℕ) (m m' : Machine) : Prop :=
  ∃ new, m'.trace = m.trace ++ new ∧ new.countP Entry.isIssue ≤ k

namespace Issues
variable {j k : ℕ} {m m' m'' : Machine}

theorem of_trace (h : m'.trace = m.trace) : Issues k m m' :=
  ⟨[], by rw [h, List.append_nil], Nat.zero_le k⟩

theorem trans (h : Issues j m m') (h' : Issues k m' m'') : Issues (j + k) m m'' := by
  obtain ⟨new, hn, hj⟩ := h
  obtain ⟨new', hn', hk⟩ := h'
  refine ⟨new ++ new', by rw [hn', hn, List.append_assoc], ?_⟩
  rw [List.countP_append]
  omega

theorem mono (h : Issues j m m') (hjk : j ≤ k) : Issues k m m' := by
  obtain ⟨new, hn, hj⟩ := h
  exact ⟨new, hn, hj.trans hjk⟩

theorem quiet (h : Quiet m m') : Issues 0 m m' := by
  obtain ⟨new, hn, ho⟩ := h.trace
  refine ⟨new, hn, (List.countP_eq_zero.2 ?_).le⟩
  intro e he
  have hside := ho e he
  cases e with
  | callback | clearStall => exact Bool.false_ne_true
  | _ => exact hside.elim

/-- Only the traces count. -/
theorem congr {m₁ m₁' : Machine} (h : Issues k m m') (hm : m₁.trace = m.trace)
    (hm' : m₁'.trace = m'.trace) : Issues k m₁ m₁' := by
  obtain ⟨new, hn, hk⟩ := h
  exact ⟨new, by rw [hm', hm, hn], hk⟩

end Issues

theorem stageDone_issues (index id : ℕ) (m : Machine) : Issues 0 m (stageDone index id m) :=
  Issues.trans (j := 0) (k := 0) ⟨[.complete id], rfl, le_rfl⟩ (.quiet (stageDone_quiet index id m))

section
variable {usl : ℕ → UslAnswer} {index : ℕ} {initiate : Machine → Machine} {k : ℕ}

/-- A completion makes the calls of its transaction. -/
theorem completionProc_issues {m : Machine} {id : ℕ} {st : UInt32} (h : Due m id st)
    (hr : m.inst.removing = false)
    (hinit : ∀ m' : Machine, m'.inst.transDepth = m.inst.transDepth → m'.inst.removing = false →
      Ready m' → Clean m' → Issues k m' (initiate m')) :
    Issues k m (completionProc initiate index id m) := by
  have hq := stageDone_quiet index id m
  have hrem : (stageDone index id m).inst.removing = false :=
    (congrArg Client.removing hq.client).trans hr
  have hdone := stageDone_issues index id m
  rw [← Nat.zero_add k]
  obtain ⟨hclean, hstop | hready⟩ := stageDone_next index h
  · have hret : (stageDone index id m).refcon &&& kReturnFromDriver ≠ 0 := by
      rw [hstop.refcon]; decide
    simp only [completionProc, hret, false_and, if_false]
    exact hdone.trans (.of_trace rfl)
  · simp only [completionProc, hready.isStage.flags.2.2.2.2.1, hrem, and_self, if_true]
    exact hdone.trans (hinit _ hq.depth hrem hready hclean)

/-- Nothing is issued after a call that completed while it was issued. -/
theorem callReturned_trace {m m' : Machine} {token : UInt32} (h : Moved 1 m m')
    (ht : m.inst.callToken = token) (id : ℕ) (err : ℤ) :
    (callReturned index initiate id token m' err).trace = m'.trace := by
  obtain heq | ⟨-, heq⟩ : callReturned index initiate id token m' err = m' ∨ Stopped m' ∧
      callReturned index initiate id token m' err = m'.setRefcon kReturnFromDriver :=
    callReturned_stays h ht id err
  · rw [heq]
  · rw [heq]
    rfl

/-- **Every answer of the library** to a call that was just issued. -/
theorem issued_issues {m : Machine} {id : ℕ} {st : UInt32} (hb : Busy m ⟨id, st⟩) (hc : Clean m)
    (hin : m.inst.callInFlight = m.inst.callToken) (hr : m.inst.removing = false)
    (hd : m.inst.transDepth ≤ maxSyncDepth)
    (hinit : ∀ m' : Machine, m'.inst.transDepth = m.inst.transDepth → m'.inst.removing = false →
      Ready m' → Clean m' → Moved 1 m' (initiate m') ∧ Issues k m' (initiate m')) :
    Issues k m (callReturned index initiate id m.inst.callToken (callUsl usl index initiate id m).1
      (callUsl usl index initiate id m).2) := by
  have hmoved : ∀ m' : Machine, m'.inst.transDepth = m.inst.transDepth →
      m'.inst.removing = false → Ready m' → Clean m' → Moved 1 m' (initiate m') :=
    fun m' h₁ h₂ h₃ h₄ => (hinit m' h₁ h₂ h₃ h₄).1
  have hissues : ∀ m' : Machine, m'.inst.transDepth = m.inst.transDepth →
      m'.inst.removing = false → Ready m' → Clean m' → Issues k m' (initiate m') :=
    fun m' h₁ h₂ h₃ h₄ => (hinit m' h₁ h₂ h₃ h₄).2
  unfold callUsl
  rcases usl id with _ | ⟨r, ret⟩ | r | e
  · -- the call stays outstanding
    exact .of_trace rfl
  · -- it completes before it returns
    have hdone := completionProc_moved index (hb.due hc r) hr hd hmoved
    have hcalls : Issues k (m.finish id r) (completionProc initiate index id (m.finish id r)) :=
      completionProc_issues (hb.due hc r) hr hissues
    exact hcalls.congr rfl (callReturned_trace hdone rfl id ret)
  · -- the driver completes it itself
    have hret : (m.finish id r).refcon &&& kReturnFromDriver = 0 := by
      show m.refcon &&& _ = 0
      rw [hb.refcon]; exact hb.isStage.flags.2.2.2.2.2.1
    have hin' : (m.finish id r).inst.callInFlight = m.inst.callToken := hin
    simp only [callReturned, hin', hret, ne_eq, not_true_eq_false, if_false, and_self, if_true]
    exact (completionProc_issues ((hb.due hc r).selfDriven hb.refcon) hr hissues).congr rfl rfl
  · -- it is refused
    have hin' : (m.refuse id).inst.callInFlight = m.inst.callToken := hin
    simp only [callReturned, e.ne_pending, e.ne_noErr, hin', ne_eq, not_true_eq_false, if_false,
      false_and]
    exact .of_trace rfl

/-- **A transaction** makes no more calls than there are depths below it. -/
theorem initiateTransaction_issues {fuel : ℕ} {m : Machine}
    (hfuel : maxSyncDepth < fuel + m.inst.transDepth) (hd : m.inst.transDepth ≤ maxSyncDepth)
    (hr : m.inst.removing = false) (h : Ready m) (hc : Clean m) :
    Issues (maxSyncDepth - m.inst.transDepth) m (initiateTransaction usl index fuel m) := by
  induction fuel generalizing m with
  | zero => omega
  | succ fuel ih =>
    unfold initiateTransaction
    simp only [hr, Bool.false_eq_true, if_false]
    split_ifs with hdeep
    · exact .of_trace rfl
    have hmask : m.enter.refcon &&& kStageMask = m.refcon := h.isStage.flags.1
    obtain ⟨pb, hpb, hw⟩ := stagePB_spec h.isStage m.enter.takeToken.inst
    simp only [hmask, hpb]
    obtain ⟨hbusy, hclean⟩ := issue_busy (m := m.enter.takeToken.updPB fun _ => pb) h.isStage
      h.calls hw h.pipe ⟨hc.issues, hc.nodup, hc.fresh⟩
    have hdeep' : m.inst.transDepth + 1 ≤ maxSyncDepth := Nat.le_of_not_lt hdeep
    have hone : Issues 1 m ((m.enter.takeToken.updPB fun _ => pb).issue m.refcon) :=
      ⟨[_], rfl, le_rfl⟩
    have hbudget : maxSyncDepth - m.inst.transDepth =
        1 + (maxSyncDepth - (m.inst.transDepth + 1)) := by omega
    rw [hbudget]
    have hnested : ∀ m' : Machine, m'.inst.transDepth = m.inst.transDepth + 1 →
        m'.inst.removing = false → Ready m' → Clean m' →
          Moved 1 m' (initiateTransaction usl index fuel m') ∧
            Issues (maxSyncDepth - (m.inst.transDepth + 1)) m'
              (initiateTransaction usl index fuel m') := by
      intro m' hd' hr' hready hcl
      refine ⟨initiateTransaction_moved (by omega) (by omega) hr' hready hcl, ?_⟩
      rw [← hd']
      exact ih (by omega) (by omega) hr' hready hcl
    exact (hone.trans (issued_issues hbusy hclean rfl hr hdeep' hnested)).congr rfl rfl

end

/-! ## Between external events -/

/-- A connection between two external events. -/
structure Resting (c : Connection) : Prop where
  conn : ConnInv c
  depth : c.inst.transDepth = 0
  calls : c.calls.length ≤ 1

section
variable {usl : ℕ → UslAnswer} {index : ℕ} {c c' : Connection}

theorem completeCall_depth {m : Machine} {id : ℕ} {r : UslResult} :
    (completeCall usl index id r m).inst.transDepth = m.inst.transDepth :=
  Kept.depth (m := m.finish id r) (completionProc_kept (initiateTransaction_kept _) id _)

/-- While the instance is being removed, a completion is its switch and no more. -/
theorem completionProc_removing {m : Machine} {id : ℕ} {r : UslResult} {initiate : Machine → Machine}
    (hr : m.inst.removing = true) : completionProc initiate index id (m.finish id r) =
      stageDone index id (m.finish id r) := by
  have hrem : (stageDone index id (m.finish id r)).inst.removing = true :=
    (congrArg Client.removing (stageDone_quiet index id (m.finish id r)).client).trans hr
  simp only [completionProc, hrem, Bool.true_eq_false, and_false, if_false]

/-- The only outstanding call has completed. -/
theorem filter_calls {calls : List Call} {id : ℕ} (h : calls.length ≤ 1)
    (hid : id ∈ calls.map Call.id) : calls.filter (·.id ≠ id) = [] := by
  obtain ⟨c, hc, rfl⟩ := List.mem_map.1 hid
  obtain rfl : calls = [c] := by
    cases calls with
    | nil => cases hc
    | cons c' cs =>
      obtain rfl : cs = [] := List.eq_nil_of_length_eq_zero (by simpa using h)
      rw [List.mem_singleton.1 hc]
  simp

theorem stageDone_calls {m : Machine} {id : ℕ} {r : UslResult} (h : m.calls.length ≤ 1)
    (hid : id ∈ m.calls.map Call.id) : (stageDone index id (m.finish id r)).calls = [] :=
  (stageDone_quiet index id _).calls.trans (filter_calls h hid)

theorem Resting.start (interfaceRef conn nextId : ℕ) (slot : Instance) :
    Resting (openConnection usl index interfaceRef conn nextId slot) := by
  have hlive : Live (openConnection usl index interfaceRef conn nextId slot) :=
    openConnection_live interfaceRef conn nextId slot
  exact ⟨.inl hlive, hlive.settled.depth, hlive.settled.pending_iff.2⟩

/-- A removal notification leaves the depth, and issues nothing. -/
theorem removalStep_calls {accepted : Bool} (hs : removalStep c accepted = some c') :
    c'.inst.transDepth = c.inst.transDepth ∧ c'.calls.length ≤ c.calls.length := by
  unfold removalStep at hs
  split at hs
  · cases hs
  · exact Option.some.inj hs ▸ ⟨rfl, le_rfl⟩
  · exact Option.some.inj hs ▸ ⟨rfl, le_rfl⟩
  · split_ifs at hs
    · exact Option.some.inj hs ▸ ⟨rfl, le_rfl⟩
    · exact Option.some.inj hs ▸ ⟨rfl, le_rfl⟩
  · split_ifs at hs
    · exact Option.some.inj hs ▸ ⟨rfl, List.length_filter_le _ _⟩
    · exact Option.some.inj hs ▸ ⟨rfl, le_rfl⟩
  · exact Option.some.inj hs ▸ ⟨rfl, le_rfl⟩
  · exact Option.some.inj hs ▸ ⟨rfl, le_rfl⟩

/-- **Every event** keeps this. -/
theorem Resting.step (h : Resting c) {e : ConnectionEvent}
    (hs : connectionStep usl index c e = some c') : Resting c' := by
  suffices hkeep : c'.inst.transDepth = c.inst.transDepth ∧ c'.calls.length ≤ 1 from
    ⟨h.conn.step hs, hkeep.1.trans h.depth, hkeep.2⟩
  cases e with
  | completion id r =>
    simp only [connectionStep] at hs
    split_ifs at hs with hid
    obtain rfl := Option.some.inj hs
    refine ⟨completeCall_depth, ?_⟩
    rcases h.conn with hlive | hleaving
    · exact (completeCall_settled hlive.settled hid r).pending_iff.2
    · show (completeCall usl index id r c.machine).calls.length ≤ 1
      rw [completeCall, completionProc_removing hleaving.removing, stageDone_calls h.calls hid]
      exact Nat.zero_le 1
  | others n => exact Option.some.inj hs ▸ ⟨rfl, h.calls⟩
  | setEventCallback callback refcon =>
    simp only [connectionStep] at hs
    split_ifs at hs
    exact Option.some.inj hs ▸ ⟨rfl, h.calls⟩
  | notify =>
    simp only [connectionStep] at hs
    split_ifs at hs
    exact Option.some.inj hs ▸ ⟨rfl, h.calls⟩
  | notifyStep accepted =>
    obtain ⟨hdepth, hcalls⟩ := removalStep_calls hs
    exact ⟨hdepth, hcalls.trans h.calls⟩

/-- An external event, as a function of the transaction that it ends with, and the
    machine in which it comes: a fresh instance, or one between two events. -/
inductive External (usl : ℕ → UslAnswer) (index : ℕ) :
    Machine → ((Machine → Machine) → Machine) → Prop
  | init (interfaceRef conn nextId : ℕ) (slot : Instance) :
      External usl index ⟨initInstance interfaceRef conn slot, [], nextId, []⟩
        fun initiate => initiate ⟨initInstance interfaceRef conn slot, [], nextId, []⟩
  | completion {interfaceRef conn nextId : ℕ} {slot : Instance} {c : Connection}
      (h : ConnRun usl index (openConnection usl index interfaceRef conn nextId slot) c) {id : ℕ}
      (hid : id ∈ c.calls.map Call.id) (r : UslResult) :
      External usl index c.machine
        fun initiate => completionProc initiate index id (c.machine.finish id r)

/-- What an external event leaves: one call and the pending bit, or neither, and a
    machine that has stopped or issues nothing any more. -/
def Rest (m : Machine) : Prop :=
  (∃ call, m.calls = [call]) ∧ m.refcon &&& kCompletionPending ≠ 0 ∨
    m.calls = [] ∧ m.refcon &&& kCompletionPending = 0 ∧
      (m.refcon &&& kReturnFromDriver ≠ 0 ∨ m.inst.removing = true)

theorem Settled.rest {m : Machine} (h : Settled m) : Rest m := by
  rcases h.state with ⟨c, hb⟩ | hs | ⟨hr, hrem⟩
  · refine .inl ⟨⟨c, hb.calls⟩, ?_⟩
    rw [hb.refcon]
    exact hb.isStage.flags.2.2.2.2.2.2.2
  · refine .inr ⟨hs.calls, ?_, .inl ?_⟩ <;> rw [hs.refcon] <;> decide
  · exact .inr ⟨hr.calls, hr.isStage.flags.2.2.2.2.2.2.1, .inr hrem⟩

/-- The pending bit is cleared. -/
theorem clearPending_bit (w : UInt32) : (w &&& ~~~kCompletionPending) &&& kCompletionPending = 0 := by
  rw [UInt32.and_assoc, show ~~~kCompletionPending &&& kCompletionPending = 0 by decide,
    UInt32.and_zero]

end

/-- **Synchronous answers cannot run the machine away.**  Whatever the library answers,
    an external event comes back: unrolled as often as the depth bound allows, the
    transaction does not call the `bottom` of the recursion.  The event issues at most
    sixteen calls, restores the depth, and leaves one pending call, or none and no
    pending bit. -/
theorem external_event {usl : ℕ → UslAnswer} {index : ℕ} {m : Machine}
    {run : (Machine → Machine) → Machine} (h : External usl index m run) :
    (∀ bottom, run ((transactionBody usl index)^[transFuel] bottom) =
        run (startTransaction usl index)) ∧
      Issues 16 m (run (startTransaction usl index)) ∧
      (m.inst.transDepth = 0 ∧ (run (startTransaction usl index)).inst.transDepth = 0) ∧
      Rest (run (startTransaction usl index)) := by
  cases h with
  | init interfaceRef conn nextId slot =>
    have hclean : Clean ⟨initInstance interfaceRef conn slot, [], nextId, []⟩ :=
      ⟨by simp, by simp [completed], by simp [completed]⟩
    have hready : Ready ⟨initInstance interfaceRef conn slot, [], nextId, []⟩ :=
      ⟨rfl, (by decide : IsStage kAllocRingState), fun h => absurd rfl h⟩
    have hsettled : Settled (startTransaction usl index
        ⟨initInstance interfaceRef conn slot, [], nextId, []⟩) :=
      startTransaction_settled interfaceRef conn slot rfl rfl hclean
    refine ⟨?_, ?_, ⟨rfl, hsettled.depth⟩, hsettled.rest⟩
    · intro bottom
      exact unrolled_eq bottom (Nat.zero_le _) (Nat.lt_succ_self _)
    · exact initiateTransaction_issues (Nat.lt_succ_self _) (Nat.zero_le _) rfl hready hclean
  | @completion interfaceRef conn nextId slot c hrun id hid r =>
    have hrest : Resting c := Reach.inv hrun (.start interfaceRef conn nextId slot)
      fun _ _ _ hI _ hs => hI.step hs
    have hdepth : (c.machine.finish id r).inst.transDepth = 0 := hrest.depth
    refine ⟨?_, ?_, ⟨hrest.depth, completeCall_depth.trans hrest.depth⟩, ?_⟩
    · intro bottom
      apply completionProc_congr
      intro m' hd
      rw [hdepth] at hd
      exact unrolled_eq bottom (by rw [hd]; decide) (by rw [hd]; decide)
    · rcases hrest.conn with hlive | hleaving
      · obtain ⟨call, hb, rfl⟩ := hlive.settled.busy hid
        refine (completionProc_issues (hb.due hlive.settled.clean r) hlive.removing ?_).congr
          rfl rfl
        intro m' hd hr hready hclean
        rw [hdepth] at hd
        have hcalls : Issues (maxSyncDepth - m'.inst.transDepth) m' (startTransaction usl index m') :=
          initiateTransaction_issues (by rw [hd]; decide) (by rw [hd]; decide) hr hready hclean
        rwa [hd] at hcalls
      · show Issues 16 c.machine (completionProc _ index id _)
        rw [completionProc_removing (m := c.machine) hleaving.removing]
        exact ((stageDone_issues index id _).congr rfl rfl).mono (Nat.zero_le 16)
    · rcases hrest.conn with hlive | hleaving
      · exact (completeCall_settled hlive.settled hid r).rest
      · show Rest (completionProc _ index id _)
        rw [completionProc_removing (m := c.machine) hleaving.removing]
        exact .inr ⟨stageDone_calls hrest.calls hid, clearPending_bit _,
          .inr ((congrArg Client.removing (stageDone_quiet index id _).client).trans
            hleaving.removing)⟩

/-- A library that completes every read inside the call that makes it. -/
def loopUsl (id : ℕ) : UslAnswer := if id < 5 then .pending else .completed (okResult 0 []) usbPending

/-- The first read completes: sixteen more are made and complete, and the bound stops the
    machine. -/
theorem external_event_loop : ∃ c, ConnRun loopUsl 0 (openConnection loopUsl 0 1 0 0 default) c ∧
    (completeCall loopUsl 0 4 (okResult 0 []) c.machine).trace.countP Entry.isIssue = 16 ∧
    (completeCall loopUsl 0 4 (okResult 0 []) c.machine).refcon = kReturnFromDriver ∧
    Issues 16 c.machine (completeCall loopUsl 0 4 (okResult 0 []) c.machine) ∧
    (completeCall loopUsl 0 4 (okResult 0 []) c.machine).inst.transDepth = 0 ∧
    Rest (completeCall loopUsl 0 4 (okResult 0 []) c.machine) := by
  have hrun : (runEvents (connectionStep loopUsl 0) (openConnection loopUsl 0 1 0 0 default)
      [.completion 0 (okResult 0 []), .completion 1 (okResult 0 []), .completion 2 (okResult 7 []),
        .completion 3 (okResult 0 [])]).map (fun c => (c.calls,
          (completeCall loopUsl 0 4 (okResult 0 []) c.machine).trace.countP Entry.isIssue,
          (completeCall loopUsl 0 4 (okResult 0 []) c.machine).refcon)) =
      some ([⟨4, kReadBulkInPipeState⟩], 16, kReturnFromDriver) := by decide +kernel
  obtain ⟨c, hc, heq⟩ := Option.map_eq_some_iff.1 hrun
  obtain ⟨hcalls, hrest⟩ := Prod.mk.inj heq
  obtain ⟨hcount, hword⟩ := Prod.mk.inj hrest
  have hid : 4 ∈ c.calls.map Call.id := by rw [hcalls]; decide
  have hreach : ConnRun loopUsl 0 (openConnection loopUsl 0 1 0 0 default) c :=
    .of_run runOk_true hc
  obtain ⟨-, hissues, ⟨-, hdepth⟩, hleft⟩ := external_event (.completion hreach hid (okResult 0 []))
  exact ⟨c, hreach, hcount, hword, hissues, hdepth, hleft⟩

end Usbmidi9
