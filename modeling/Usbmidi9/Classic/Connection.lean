/-
  USBMIDI9 — one interface connection, from its initialisation until its slot is
  disposed of or relocated.

  A `Connection` is a claimed slot with its log.  Its events are the completion of
  an outstanding call, the calls that other connections issue meanwhile, the
  client's hook, and removal notifications, which pass the slot store by store with
  completions in between; an abort that is refused drops a bulk read.
  `ConnInv` is the invariant: until `removing` is set, the log is one that
  `StageOrder` accepts, and from then on it has no more calls.  `stage_order` is
  the result over runs.
-/
import Usbmidi9.Classic.Stages
import Usbmidi9.Classic.Removal

namespace Usbmidi9

/-! ## Runs -/

/-- Where a removal notification is in the slot. -/
inductive RemovalPhase where
  /-- not in this slot -/
  | away
  /-- `removing` is set -/
  | unhook
  /-- `eventCallback` is cleared -/
  | unref
  /-- `eventRefcon` is cleared -/
  | test
  /-- the pending bit was set -/
  | abort
  /-- the abort was refused -/
  | refused
  /-- the refcon word is read -/
  | clear (refcon : UInt32)
deriving DecidableEq, Repr

/-- A claimed slot, with the number of the library's next call and the log. -/
structure Connection where
  inst : Instance
  calls : List Call
  nextId : ℕ
  phase : RemovalPhase
  log : List UslEntry

namespace Connection

/-- The machine of the slot. -/
def machine (c : Connection) : Machine := ⟨c.inst, c.calls, c.nextId, []⟩

/-- The machine ran, with this log. -/
def ran (c : Connection) (m : Machine) (L : List UslEntry) : Connection :=
  { c with inst := m.inst, calls := m.calls, nextId := m.nextId, log := c.log ++ L }

/-- Update the instance, and go on at `p`. -/
def upd (c : Connection) (f : Instance → Instance) (p : RemovalPhase) : Connection :=
  { c with inst := f c.inst, phase := p }

end Connection

inductive ConnectionEvent where
  /-- the library completes an outstanding call -/
  | completion (id : ℕ) (r : UslResult)
  /-- other connections issue `n` calls -/
  | others (n : ℕ)
  | setEventCallback (callback : Option ℕ) (refcon : UInt32)
  /-- a removal notification reaches the slot -/
  | notify
  | notifyStep (accepted : Bool)

section
variable (usl : ℕ → UslAnswer) (index : ℕ)

/-- The interface of a slot is initialised. -/
def openConnection (interfaceRef conn nextId : ℕ) (slot : Instance) : Connection :=
  let m : Machine := ⟨initInstance interfaceRef conn slot, [], nextId, []⟩
  (⟨m.inst, [], nextId, .away, []⟩ : Connection).ran (startTransaction usl index m)
    (transactionLog usl index transFuel m)

/-- One step of a removal notification in the slot. -/
def removalStep (c : Connection) (accepted : Bool) : Option Connection :=
  match c.phase with
  | .away => none
  | .unhook => some (c.upd .unhook .unref)
  | .unref => some (c.upd .unref .test)
  | .test =>
    if c.inst.pb.usbRefcon &&& kCompletionPending ≠ 0 then some (c.upd id .abort)
    else some (c.upd id .away)
  | .abort =>
    if c.inst.bulkInPipe ≠ 0 ∧ accepted = false then
      some { c with calls := c.calls.filter (·.stage ≠ kReadBulkInPipeState), phase := .refused }
    else some (c.upd id .away)
  | .refused => some (c.upd id (.clear c.inst.pb.usbRefcon))
  | .clear w => some (c.upd (.setRefcon (w &&& ~~~kCompletionPending)) .away)

/-- One event. -/
def connectionStep (c : Connection) : ConnectionEvent → Option Connection
  | .completion id r =>
    if id ∈ c.calls.map Call.id then
      some (c.ran (completeCall usl index id r c.machine) (completeLog usl index id r c.machine))
    else none
  | .others n => some { c with nextId := c.nextId + n }
  | .setEventCallback callback refcon =>
    if c.phase = .away then some (c.upd (.setHook callback refcon) .away) else none
  | .notify => if c.phase = .away then some (c.upd .setRemoving .unhook) else none
  | .notifyStep accepted => removalStep c accepted

end

/-! ## The invariant -/

/-- Until `removing` is set: the log is accepted, and the automaton is where the machine is. -/
structure Live (c : Connection) : Prop where
  removing : c.inst.removing = false
  phase : c.phase = .away
  settled : Settled c.machine
  follows : Follows .start c.log c.machine

/-- From then on: an accepted log, and no more calls. -/
structure Leaving (c : Connection) : Prop where
  removing : c.inst.removing = true
  log : ∃ L₁ L₂ p, c.log = L₁ ++ L₂ ∧ StageOrder.run .start L₁ = some p ∧ callsOf L₂ = []

/-- **The invariant** of a connection. -/
def ConnInv (c : Connection) : Prop := Live c ∨ Leaving c

section
variable {usl : ℕ → UslAnswer} {index : ℕ} {c c' : Connection}

/-! ### Removal -/

/-- What follows the first store of a removal. -/
theorem Leaving.append (h : Leaving c) (hr : c'.inst.removing = true) {L : List UslEntry}
    (hlog : c'.log = c.log ++ L) (hL : callsOf L = []) : Leaving c' := by
  obtain ⟨L₁, L₂, p, hc, hrun, hcalls⟩ := h.log
  refine ⟨hr, L₁, L₂ ++ L, p, ?_, hrun, ?_⟩
  · rw [hlog, hc, List.append_assoc]
  · rw [callsOf_append, hcalls, hL]
    rfl

theorem Leaving.same (h : Leaving c) (hr : c'.inst.removing = true) (hlog : c'.log = c.log) :
    Leaving c' :=
  h.append hr (hlog.trans (List.append_nil _).symm) rfl

/-- The first store of a removal. -/
theorem Live.leaving (h : Live c) (hr : c'.inst.removing = true) (hlog : c'.log = c.log) :
    Leaving c' := by
  obtain ⟨p, hrun, -⟩ := h.follows
  exact ⟨hr, c.log, [], p, hlog.trans (List.append_nil _).symm, hrun, rfl⟩

theorem stageLog_calls (m : Machine) : callsOf (stageLog m) = [] := by
  unfold stageLog
  split_ifs <;> rfl

/-- A completion issues nothing while the instance is being removed. -/
theorem completeLog_removing {id : ℕ} {r : UslResult} {m : Machine}
    (hr : m.inst.removing = true) : callsOf (completeLog usl index id r m) = [] := by
  have hrem : (stageDone index id (m.finish id r)).inst.removing = true :=
    (congrArg Client.removing (stageDone_quiet index id (m.finish id r)).client).trans hr
  unfold completeLog completionLog
  simp only [hrem, callsOf_done, callsOf_append, stageLog_calls, List.nil_append,
    Bool.true_eq_false, if_false]
  split_ifs <;> rfl

theorem completeCall_removing {id : ℕ} {r : UslResult} {m : Machine} :
    (completeCall usl index id r m).inst.removing = m.inst.removing := by
  have hkept : Kept (m.finish id r) (completeCall usl index id r m) :=
    completionProc_kept (initiateTransaction_kept _) _ _
  exact congrArg Client.removing hkept.client

/-- A removal notification writes nothing to the log. -/
theorem removalStep_same {accepted : Bool} (hs : removalStep c accepted = some c') :
    c'.inst.removing = c.inst.removing ∧ c'.log = c.log := by
  unfold removalStep at hs
  split at hs
  · cases hs
  · exact Option.some.inj hs ▸ ⟨rfl, rfl⟩
  · exact Option.some.inj hs ▸ ⟨rfl, rfl⟩
  · split_ifs at hs
    · exact Option.some.inj hs ▸ ⟨rfl, rfl⟩
    · exact Option.some.inj hs ▸ ⟨rfl, rfl⟩
  · split_ifs at hs
    · exact Option.some.inj hs ▸ ⟨rfl, rfl⟩
    · exact Option.some.inj hs ▸ ⟨rfl, rfl⟩
  · exact Option.some.inj hs ▸ ⟨rfl, rfl⟩
  · exact Option.some.inj hs ▸ ⟨rfl, rfl⟩

/-- **Every event** of a connection that is being removed. -/
theorem Leaving.step (h : Leaving c) {e : ConnectionEvent}
    (hs : connectionStep usl index c e = some c') :
    Leaving c' ∧ callsOf c'.log = callsOf c.log := by
  cases e with
  | completion id r =>
    simp only [connectionStep] at hs
    split_ifs at hs with hid
    obtain rfl := Option.some.inj hs
    have hcalls : callsOf (completeLog usl index id r c.machine) = [] :=
      completeLog_removing h.removing
    refine ⟨h.append (completeCall_removing.trans h.removing) rfl hcalls, ?_⟩
    show callsOf (c.log ++ _) = _
    rw [callsOf_append, hcalls, List.append_nil]
  | others n =>
    obtain rfl := Option.some.inj hs
    exact ⟨h.same h.removing rfl, rfl⟩
  | setEventCallback callback refcon =>
    simp only [connectionStep] at hs
    split_ifs at hs
    obtain rfl := Option.some.inj hs
    exact ⟨h.same h.removing rfl, rfl⟩
  | notify =>
    simp only [connectionStep] at hs
    split_ifs at hs
    obtain rfl := Option.some.inj hs
    exact ⟨h.same rfl rfl, rfl⟩
  | notifyStep accepted =>
    obtain ⟨hr, hlog⟩ := removalStep_same hs
    exact ⟨h.same (hr.trans h.removing) hlog, congrArg callsOf hlog⟩

/-! ### Before a removal -/

/-- The fresh connection. -/
theorem openConnection_live (interfaceRef conn nextId : ℕ) (slot : Instance) :
    Live (openConnection usl index interfaceRef conn nextId slot) := by
  have hclean : Clean ⟨initInstance interfaceRef conn slot, [], nextId, []⟩ :=
    ⟨by simp, by simp [completed], by simp [completed]⟩
  have hready : Ready ⟨initInstance interfaceRef conn slot, [], nextId, []⟩ :=
    ⟨rfl, (by decide : IsStage kAllocRingState), fun h => absurd rfl h⟩
  have hkept : Kept ⟨initInstance interfaceRef conn slot, [], nextId, []⟩
      (startTransaction usl index ⟨initInstance interfaceRef conn slot, [], nextId, []⟩) :=
    initiateTransaction_kept _ _
  refine ⟨congrArg Client.removing hkept.client, rfl, ?_, ?_⟩
  · exact (startTransaction_settled interfaceRef conn slot rfl rfl hclean).forget le_rfl
  · have hsim : Follows .start
        (transactionLog usl index transFuel ⟨initInstance interfaceRef conn slot, [], nextId, []⟩)
        (startTransaction usl index ⟨initInstance interfaceRef conn slot, [], nextId, []⟩) :=
      transaction_sim (n := 0) (Nat.lt_succ_self maxSyncDepth) (Nat.zero_le _) rfl hready hclean rfl
    exact hsim.congr rfl rfl rfl

/-- **A completion** of the outstanding call. -/
theorem Live.completion (h : Live c) {id : ℕ} (hid : id ∈ c.calls.map Call.id) (r : UslResult) :
    Live (c.ran (completeCall usl index id r c.machine)
      (completeLog usl index id r c.machine)) := by
  obtain ⟨p, hrun, hagrees⟩ := h.follows
  refine ⟨completeCall_removing.trans h.removing, h.phase, ?_, ?_⟩
  · exact (completeCall_settled h.settled hid r).forget le_rfl
  · have hsim : Follows p (completeLog usl index id r c.machine)
        (completeCall usl index id r c.machine) := completeCall_sim h.settled hagrees h.removing hid r
    exact (Follows.append hrun hsim).congr rfl rfl rfl

/-- A notification begins with its first store. -/
theorem Live.removalStep_none (h : Live c) (accepted : Bool) : removalStep c accepted = none := by
  unfold removalStep
  rw [h.phase]

/-- **Every event** keeps the invariant. -/
theorem ConnInv.step (h : ConnInv c) {e : ConnectionEvent}
    (hs : connectionStep usl index c e = some c') : ConnInv c' := by
  rcases h with h | h
  · cases e with
    | completion id r =>
      simp only [connectionStep] at hs
      split_ifs at hs with hid
      exact Option.some.inj hs ▸ .inl (h.completion hid r)
    | others n =>
      obtain rfl := Option.some.inj hs
      exact .inl ⟨h.removing, h.phase, h.settled.forget (Nat.le_add_right _ n),
        h.follows.congr rfl rfl rfl⟩
    | setEventCallback callback refcon =>
      simp only [connectionStep] at hs
      split_ifs at hs
      obtain rfl := Option.some.inj hs
      exact .inl ⟨h.removing, rfl, (clientStore_setHook callback refcon).settled h.settled,
        h.follows.congr rfl rfl rfl⟩
    | notify =>
      simp only [connectionStep] at hs
      split_ifs at hs
      obtain rfl := Option.some.inj hs
      exact .inr (h.leaving rfl rfl)
    | notifyStep accepted =>
      have hnone := h.removalStep_none accepted
      rw [connectionStep, hnone] at hs
      cases hs
  · exact .inr (h.step hs).1

/-- `removing` is set, or the machine has stopped. -/
def Over (c : Connection) : Prop :=
  c.inst.removing = true ∨ c.inst.pb.usbRefcon &&& kReturnFromDriver ≠ 0

/-- A stopped machine has no call outstanding. -/
theorem Live.calls_of_over (h : Live c) (ho : Over c) : c.calls = [] := by
  have hret : c.machine.refcon &&& kReturnFromDriver ≠ 0 :=
    ho.resolve_left (by rw [h.removing]; decide)
  rcases h.settled.state with ⟨call, hb⟩ | hs | ⟨-, hrem⟩
  · rw [hb.refcon] at hret
    exact absurd hb.isStage.flags.2.2.2.2.2.1 hret
  · exact hs.calls
  · exact absurd (h.removing.symm.trans hrem) (by decide)

/-- **No call is issued any more.** -/
theorem ConnInv.over_step (h : ConnInv c) (ho : Over c) {e : ConnectionEvent}
    (hs : connectionStep usl index c e = some c') :
    Over c' ∧ callsOf c'.log = callsOf c.log := by
  rcases h with h | h
  · cases e with
    | completion id r =>
      simp only [connectionStep, h.calls_of_over ho] at hs
      cases hs
    | others n =>
      obtain rfl := Option.some.inj hs
      exact ⟨ho, rfl⟩
    | setEventCallback callback refcon =>
      simp only [connectionStep] at hs
      split_ifs at hs
      obtain rfl := Option.some.inj hs
      exact ⟨ho, rfl⟩
    | notify =>
      simp only [connectionStep] at hs
      split_ifs at hs
      obtain rfl := Option.some.inj hs
      exact ⟨.inl rfl, rfl⟩
    | notifyStep accepted =>
      have hnone := h.removalStep_none accepted
      rw [connectionStep, hnone] at hs
      cases hs
  · obtain ⟨hc, hcalls⟩ := h.step hs
    exact ⟨.inl hc.removing, hcalls⟩

/-- The log begins with an accepted one that has all of its calls. -/
theorem ConnInv.log (h : ConnInv c) : ∃ L₁ L₂ p, c.log = L₁ ++ L₂ ∧
    StageOrder.run .start L₁ = some p ∧ callsOf L₂ = [] := by
  rcases h with h | h
  · obtain ⟨p, hrun, -⟩ := h.follows
    exact ⟨c.log, [], p, (List.append_nil _).symm, hrun, rfl⟩
  · exact h.log

/-- A call of the log is in the accepted part. -/
theorem split_accepted {L₁ L₂ L L' : List UslEntry} {id : ℕ} {call : UslCall} {pb : UsbPB}
    (h : L₁ ++ L₂ = L ++ .issue id call pb :: L') (hcalls : callsOf L₂ = []) :
    ∃ L'', L₁ = L ++ .issue id call pb :: L'' := by
  rcases List.append_eq_append_iff.1 h with ⟨K, hK, hL₂⟩ | ⟨K, hK, hL'⟩
  · rw [hL₂, callsOf_append, callsOf_issue] at hcalls
    exact absurd hcalls (by simp)
  · cases K with
    | nil =>
      obtain rfl : L₂ = .issue id call pb :: L' := hL'.symm
      exact absurd hcalls (by simp)
    | cons e K =>
      obtain ⟨rfl, -⟩ := List.cons.inj hL'
      exact ⟨K, hK⟩

/-- Nor is there one after a stop. -/
theorem ConnInv.after_stop (h : ConnInv c) {L L' : List UslEntry} (hL : c.log = L ++ .stop :: L') :
    callsOf L' = [] := by
  obtain ⟨L₁, L₂, p, hc, hrun, hcalls⟩ := h.log
  rcases List.append_eq_append_iff.1 (hc.symm.trans hL) with ⟨K, hK, hL₂⟩ | ⟨K, hK, hL'⟩
  · rw [hL₂, callsOf_append, List.append_eq_nil_iff] at hcalls
    exact hcalls.2
  · cases K with
    | nil =>
      obtain rfl : L₂ = .stop :: L' := hL'.symm
      exact hcalls
    | cons e K =>
      obtain ⟨he, hrest⟩ := List.cons.inj hL'
      rw [show L' = K ++ L₂ from hrest, callsOf_append, hcalls, List.append_nil]
      exact StageOrder.accepted_stop hrun (he ▸ hK)

end

/-! ## The result -/

/-- Any events in any order. -/
abbrev ConnRun (usl : ℕ → UslAnswer) (index : ℕ) : Connection → Connection → Prop :=
  Reach (connectionStep usl index) fun _ _ => True

theorem ConnRun.inv {usl : ℕ → UslAnswer} {index : ℕ} {c c' : Connection}
    (h : ConnRun usl index c c') (hc : ConnInv c) : ConnInv c' :=
  Reach.inv h hc fun _ _ _ hI _ hs => hI.step hs

theorem ConnRun.over {usl : ℕ → UslAnswer} {index : ℕ} {c c' : Connection}
    (h : ConnRun usl index c c') (hc : ConnInv c) (ho : Over c) :
    callsOf c'.log = callsOf c.log := by
  have hinv : ConnInv c' ∧ Over c' ∧ callsOf c'.log = callsOf c.log := by
    refine Reach.inv (I := fun s => ConnInv s ∧ Over s ∧ callsOf s.log = callsOf c.log) h
      ⟨hc, ho, rfl⟩ ?_
    rintro s e s' ⟨hI, hover, hcalls⟩ - hs
    obtain ⟨hover', hcalls'⟩ := hI.over_step hover hs
    exact ⟨hI.step hs, hover', hcalls'.trans hcalls⟩
  exact hinv.2.2

/-- **The stage order.**  Whatever the library answers, and wherever completions and the
    steps of removal notifications fall: the calls of a connection are a prefix of
    `callSeq`; each one but the first follows the success of the one before it, or the
    clearing of its stall; each read uses the pipe, the packet size and the aligned buffer
    that the connection's own calls obtained; and there is no call after a stop, or once
    `removing` is set or the machine has stopped. -/
theorem stage_order {usl : ℕ → UslAnswer} {index interfaceRef conn nextId : ℕ} {slot : Instance}
    {c : Connection}
    (h : ConnRun usl index (openConnection usl index interfaceRef conn nextId slot) c) :
    (∃ n, callsOf c.log = (List.range n).map callSeq) ∧
    (∀ L id call pb L', c.log = L ++ .issue id call pb :: L' → L = [] ∨ StageOrder.WellDone L) ∧
    (∀ L id pb L', c.log = L ++ .issue id .bulkRead pb :: L' →
      ∃ s : ReadSetup, StageOrder.FoundBy L s ∧ StageOrder.BufferBy L s ∧
        pb.usbReference = s.pipe ∧ pb.usbReqCount = s.maxPacketSize ∧
        pb.usbBuffer = s.buffer) ∧
    (∀ L L', c.log = L ++ .stop :: L' → callsOf L' = []) ∧
    (c.inst.removing = true ∨ c.inst.pb.usbRefcon &&& kReturnFromDriver ≠ 0 →
      ∀ c', ConnRun usl index c c' → callsOf c'.log = callsOf c.log) := by
  have hc : ConnInv c := h.inv (.inl (openConnection_live interfaceRef conn nextId slot))
  obtain ⟨L₁, L₂, p, hlog, hrun, hcalls⟩ := hc.log
  refine ⟨⟨p.made, ?_⟩, ?_, ?_, ?_, ?_⟩
  · rw [hlog, callsOf_append, hcalls, List.append_nil]
    exact (StageOrder.explains_of_run hrun).calls
  · intro L id call pb L' hL
    obtain ⟨L'', hL₁⟩ := split_accepted (hlog.symm.trans hL) hcalls
    exact StageOrder.accepted_call hrun hL₁
  · intro L id pb L' hL
    obtain ⟨L'', hL₁⟩ := split_accepted (hlog.symm.trans hL) hcalls
    exact StageOrder.accepted_read hrun hL₁
  · intro L L' hL
    exact hc.after_stop hL
  · intro ho c' hrun'
    exact hrun'.over hc ho

/-- Calls that complete in different ways, a stalled read, a removal whose abort is
    refused, and the rest of the notification. -/
theorem stage_order_removed : ∃ c,
    runEvents (connectionStep mixedUsl 0) (openConnection mixedUsl 0 1 0 0 default)
      [.completion 3 (okResult 0 []), .completion 4 ⟨usbPipeStalledError, 0, 0, 0, [], fun _ => 0⟩,
        .others 2, .completion 5 (okResult 0 [9, 0x90, 0x30, 0x50]), .notify, .notifyStep true,
        .notifyStep true, .notifyStep true, .notifyStep false, .notifyStep true,
        .notifyStep true] = some c ∧
      callsOf c.log = [.allocMem, .configureInterface, .findNextPipe, .allocMem, .bulkRead,
        .bulkRead, .bulkRead] ∧
      (∃ n, callsOf c.log = (List.range n).map callSeq) ∧
      ∀ c', ConnRun mixedUsl 0 c c' → callsOf c'.log = callsOf c.log := by
  obtain ⟨c, hc⟩ : ∃ c,
    runEvents (connectionStep mixedUsl 0) (openConnection mixedUsl 0 1 0 0 default)
      [.completion 3 (okResult 0 []), .completion 4 ⟨usbPipeStalledError, 0, 0, 0, [], fun _ => 0⟩,
        .others 2, .completion 5 (okResult 0 [9, 0x90, 0x30, 0x50]), .notify, .notifyStep true,
        .notifyStep true, .notifyStep true, .notifyStep false, .notifyStep true,
        .notifyStep true] = some c := ⟨_, rfl⟩
  obtain ⟨horder, -, -, -, hover⟩ := stage_order (.of_run runOk_true hc)
  have hcalls := congrArg (Option.map fun c => (callsOf c.log, c.inst.removing)) hc
  have hfinal := Option.some.inj (hcalls.symm.trans (by decide +kernel :
    _ = some ([.allocMem, .configureInterface, .findNextPipe, .allocMem, .bulkRead,
      .bulkRead, .bulkRead], true)))
  obtain ⟨hlist, hrem⟩ := Prod.mk.inj hfinal
  exact ⟨c, hc, hlist, horder, hover (.inl hrem)⟩

end Usbmidi9
