/-
  USBMIDI9 — the memory blocks of an interface connection (`classic/usb_driver.c`).

  `obtained` are the blocks of the `USBAllocMem` calls that completed well, read off a
  log; `held` are the blocks in an instance's fields, and `freedFor` those that were passed
  to `USBDeallocMem` for a connection, read off the trace (`freedFor_dispose`).  `FlatStep.tracks` is the step lemma: the instance holds what it
  obtained, since both stages that allocate find their field empty (`Vacant`).

  `Booked.step` is the result for the events of a connection, also while it is being
  removed and its calls are still completing.
-/
import Usbmidi9.Classic.Reentry

namespace Usbmidi9

/-! ## What is obtained and what is given back -/

/-- The call that was issued last, and the blocks obtained so far. -/
structure BlockTrack where
  last : Option (ℕ × UslCall)
  blocks : List ℕ
deriving DecidableEq, Repr

/-- One entry: a `USBAllocMem` that completes well gives a block. -/
def BlockTrack.next (t : BlockTrack) : UslEntry → BlockTrack
  | .issue id call _ => { t with last := some (id, call) }
  | .done id pb =>
    if t.last = some (id, .allocMem) ∧ pb.usbStatus = usbNoErr ∧ pb.usbBuffer ≠ 0 then
      { t with blocks := t.blocks ++ [pb.usbBuffer] }
    else t
  | _ => t

/-- After a log. -/
def BlockTrack.after (t : BlockTrack) (L : List UslEntry) : BlockTrack := L.foldl BlockTrack.next t

/-- The blocks that a connection obtained. -/
def obtained (L : List UslEntry) : List ℕ := (BlockTrack.after ⟨none, []⟩ L).blocks

/-- A block that is not `nil`. -/
def heldBlock (b : ℕ) : List ℕ := if b = 0 then [] else [b]

/-- The blocks that an instance holds. -/
def held (inst : Instance) : List ℕ := heldBlock inst.ringBuffer ++ heldBlock inst.readBufferBase

/-- The blocks that were passed to `USBDeallocMem` for a connection. -/
def freedFor (conn : ℕ) (trace : List Entry) : List ℕ :=
  trace.filterMap fun
    | .dealloc c block => if c = conn then some block else none
    | _ => none

theorem freedFor_append (conn : ℕ) (trace es : List Entry) :
    freedFor conn (trace ++ es) = freedFor conn trace ++ freedFor conn es :=
  List.filterMap_append

/-- Entries that tell of no block. -/
theorem freedFor_nil {conn : ℕ} {es : List Entry} (h : ∀ e ∈ es, ∀ c block, e ≠ .dealloc c block) :
    freedFor conn es = [] := by
  refine List.filterMap_eq_nil_iff.2 fun e he => ?_
  cases e with
  | dealloc c block => exact absurd rfl (h _ he c block)
  | _ => rfl

theorem freedFor_deallocs (conn : ℕ) (inst : Instance) :
    freedFor conn (deallocs inst) = if inst.conn = conn then held inst else [] := by
  have hone : ∀ b, freedFor conn (dealloc inst.conn b) =
      if inst.conn = conn then heldBlock b else [] := by
    intro b
    unfold dealloc heldBlock
    by_cases hb : b = 0
    · rw [if_pos hb, if_pos hb, ite_self]
      rfl
    · rw [if_neg hb, if_neg hb]
      unfold freedFor
      split_ifs with hc <;> simp [hc]
  rw [deallocs, freedFor_append, hone, hone, held]
  split_ifs <;> rfl

/-- **Disposing** of an instance gives back the blocks it holds. -/
theorem freedFor_dispose (s : Registry) (i conn : ℕ) :
    freedFor conn (disposeInstance s i).trace =
      freedFor conn s.trace ++ if (s.inst i).conn = conn then held (s.inst i) else [] := by
  obtain ⟨new, hnew, htouch⟩ := disposeInstance_trace s i
  have hnone : freedFor conn new = [] := freedFor_nil fun e he => by
    obtain ⟨k, n, rfl, -⟩ := htouch e he
    exact nofun
  rw [hnew, freedFor_append, freedFor_append, freedFor_deallocs, hnone, List.append_nil]

section
variable {usl : ℕ → UslAnswer} {s s' : Registry} {conn : ℕ}

theorem freedFor_log (s : Registry) {e : Entry} (he : ∀ c block, e ≠ .dealloc c block) :
    freedFor conn (s.log e).trace = freedFor conn s.trace := by
  have hnone : freedFor conn [e] = [] := freedFor_nil fun e' he' => by
    rw [List.mem_singleton.1 he']
    exact he
  exact (freedFor_append ..).trans (by rw [hnone, List.append_nil])

theorem freedFor_put {k : ℕ} {m m' : Machine} (hkept : Kept m m') (ht : m.trace = []) :
    freedFor conn (s.put k m').trace = freedFor conn s.trace := by
  obtain ⟨new, hnew, hown⟩ := hkept.trace
  have hnone : freedFor conn m'.trace = [] := freedFor_nil fun e he => by
    rw [hnew, ht, List.nil_append] at he
    rintro c block rfl
    exact (hown _ he).elim id id
  exact (freedFor_append ..).trans (by rw [hnone, List.append_nil])

/-- **Every other event** gives back no block. -/
theorem registryStep_freed {e : RegistryEvent} (he : e.NoFinalize)
    (hs : registryStep usl s e = some s') : freedFor conn s'.trace = freedFor conn s.trace := by
  have htask : ∀ f : Registry → Registry,
      (∀ t, freedFor conn (f t).trace = freedFor conn t.trace) → s.task f = some s' →
        freedFor conn s'.trace = freedFor conn s.trace := by
    intro f hf h
    unfold Registry.task at h
    split_ifs at h
    obtain rfl := Option.some.inj h
    exact hf _
  cases e with
  | init d ref =>
    simp only [registryStep] at hs
    refine htask _ (fun t => ?_) hs
    unfold initializeInterface claimInstance
    split_ifs
    · rfl
    · rfl
    · rfl
    · exact (freedFor_put (initiateTransaction_kept _ _) rfl).trans (freedFor_log _ (by simp))
  | setEventCallback index callback refcon =>
    simp only [registryStep] at hs
    refine htask _ (fun t => ?_) hs
    unfold setEventCallback
    split_ifs
    · rfl
    · exact freedFor_log _ (by simp)
  | completion k id r =>
    simp only [registryStep] at hs
    split_ifs at hs
    obtain rfl := Option.some.inj hs
    exact freedFor_put (m := (s.machine k).finish id r)
      (completionProc_kept (initiateTransaction_kept _) _ _) rfl
  | notify =>
    simp only [registryStep] at hs
    refine htask _ ?_ hs
    exact fun _ => rfl
  | notifyStep accepted =>
    simp only [registryStep, notifyStep] at hs
    split at hs
    next => cases hs
    next => cases hs
    next => split_ifs at hs <;> exact Option.some.inj hs ▸ rfl
    next => exact Option.some.inj hs ▸ freedFor_log _ (by simp)
    next => exact Option.some.inj hs ▸ rfl
    next => split_ifs at hs <;> exact Option.some.inj hs ▸ rfl
    next => split_ifs at hs <;> exact Option.some.inj hs ▸ rfl
    next => exact Option.some.inj hs ▸ rfl
    next => exact Option.some.inj hs ▸ rfl
  | finalize ref => exact he.elim

end

/-! ## A step -/

/-- A stage that allocates finds its field empty. -/
structure Vacant (stage : UInt32) (inst : Instance) : Prop where
  ring : stage = kAllocRingState → inst.ringBuffer = 0
  read : stage ≤ kAllocReadBufferState → inst.readBufferBase = 0

/-- The instance holds what it obtained, and can hold what it is about to obtain. -/
structure Tracks (m : Machine) (t : BlockTrack) : Prop where
  blocks : t.blocks = held m.inst
  call : ∀ c ∈ m.calls, t.last = some (c.id, stageCall c.stage) ∧ Vacant c.stage m.inst
  ready : m.calls = [] → m.inst.removing = false → IsStage m.refcon → Vacant m.refcon m.inst

theorem BlockTrack.after_append (t : BlockTrack) (L L' : List UslEntry) :
    t.after (L ++ L') = (t.after L).after L' := List.foldl_append

theorem readCompleted_blocks (index id : ℕ) (m : Machine) :
    (readCompleted index id m).inst.ringBuffer = m.inst.ringBuffer ∧
      (readCompleted index id m).inst.readBufferBase = m.inst.readBufferBase := by
  unfold readCompleted
  simp only
  split_ifs
  · split <;> exact ⟨rfl, rfl⟩
  · exact ⟨rfl, rfl⟩
  · split <;> exact ⟨rfl, rfl⟩
  · exact ⟨rfl, rfl⟩

/-- The blocks that the switch of the completion stores. -/
theorem completionStage_blocks (index id : ℕ) (m : Machine) :
    (completionStage index id m).inst.ringBuffer =
        (if m.refcon &&& kStageMask = kAllocRingState ∧ m.inst.pb.usbStatus = usbNoErr then
          m.inst.pb.usbBuffer else m.inst.ringBuffer) ∧
      (completionStage index id m).inst.readBufferBase =
        if m.refcon &&& kStageMask = kAllocReadBufferState ∧ m.inst.pb.usbStatus = usbNoErr then
          m.inst.pb.usbBuffer else m.inst.readBufferBase := by
  have hread := readCompleted_blocks index id (m.upd fun inst => { inst with callInFlight := 0 })
  unfold completionStage
  generalize m.refcon &&& kStageMask = st
  by_cases hok : m.inst.pb.usbStatus = usbNoErr
  · by_cases h0 : st = kAllocRingState
    · simp [h0, hok, Machine.upd, Instance.advance, kAllocRingState, kAllocReadBufferState]
    by_cases h3 : st = kAllocReadBufferState
    · simp [h3, hok, Machine.upd, Instance.advance, kAllocRingState, kConfigureInterfaceState,
        kFindBulkInPipeState, kAllocReadBufferState]
    simp only [h0, h3, hok, false_and, if_false]
    split_ifs with h1 h2 h4
    · simp [hok, Machine.upd, Instance.advance]
    · simp [hok, Machine.upd, Instance.advance]
    · exact hread
    · exact ⟨rfl, rfl⟩
  · simp only [hok, and_false, if_false]
    split_ifs with h0 h1 h2 h3 h4
    · simp [hok, Machine.upd, Instance.advance]
    · simp [hok, Machine.upd, Instance.advance]
    · simp [hok, Machine.upd, Instance.advance]
    · simp [hok, Machine.upd, Instance.advance]
    · exact hread
    · exact ⟨rfl, rfl⟩

/-- The words that the switch leaves after a stage: the machine stops, or goes on to a later
    stage or to the last one again. -/
def Later (stage next : UInt32) : Prop :=
  next = kReturnFromDriver ∨ IsStage next ∧ next ≠ kAllocRingState ∧
    (next ≤ kAllocReadBufferState → stage < kAllocReadBufferState)

instance (stage next : UInt32) : Decidable (Later stage next) :=
  inferInstanceAs (Decidable (_ ∨ _ ∧ _ ∧ _))

theorem advance_later (m : Machine) {stage next : UInt32} (h : Later stage next)
    (f : Instance → Instance) : Later stage (m.upd (·.advance next f)).refcon := by
  by_cases hok : m.inst.pb.usbStatus = usbNoErr
  · rwa [show (m.upd (·.advance next f)).refcon = next from (advance_success m.inst hok next f).1]
  · exact .inl (advance_failure m.inst hok next f)

theorem completionStage_later (index id : ℕ) (m : Machine) :
    Later (m.refcon &&& kStageMask) (completionStage index id m).refcon := by
  unfold completionStage
  generalize m.refcon &&& kStageMask = st
  simp only
  split_ifs with h0 h1 h2 h3 h4
  · exact advance_later _ (h0 ▸ by decide) _
  · exact advance_later _ (h1 ▸ by decide) _
  · exact advance_later _ (h2 ▸ by decide) _
  · exact advance_later _ (h3 ▸ by decide) _
  · show Later st (readNext m.inst.pb.usbStatus)
    rw [h4, readNext]
    split_ifs <;> decide
  · exact .inl rfl

/-- An instance that holds no blocks of the stages to come. -/
theorem stageDone_vacant (index id : ℕ) {m : Machine}
    (h : Vacant (m.refcon &&& kStageMask) m.inst) (hs : IsStage (stageDone index id m).refcon) :
    Vacant (stageDone index id m).refcon (stageDone index id m).inst := by
  have hword : (stageDone index id m).refcon =
      (completionStage index id (m.log (.complete id))).refcon &&& ~~~kCompletionPending := rfl
  have hread : (stageDone index id m).inst.readBufferBase =
      if m.refcon &&& kStageMask = kAllocReadBufferState ∧ m.inst.pb.usbStatus = usbNoErr then
        m.inst.pb.usbBuffer else m.inst.readBufferBase :=
    (completionStage_blocks index id (m.log (.complete id))).2
  rcases completionStage_later index id (m.log (.complete id)) with hret | ⟨hstage, hring, hlater⟩
  · rw [hword, hret] at hs
    exact absurd hs (by decide)
  · rw [hword, hstage.flags.2.2.1]
    refine ⟨fun h0 => absurd h0 hring, ?_⟩
    intro hle
    have hlt : m.refcon &&& kStageMask < kAllocReadBufferState := hlater hle
    rw [hread, if_neg fun h3 => UInt32.ne_of_lt hlt h3.1]
    exact h.read (UInt32.le_of_lt hlt)

theorem stageCall_alloc {stage : UInt32} :
    stageCall stage = .allocMem ↔ stage = kAllocRingState ∨ stage = kAllocReadBufferState := by
  unfold stageCall
  split_ifs with h0 h1 h2 h3
  · exact iff_of_true rfl (.inl h0)
  · exact iff_of_false (by decide) (h1 ▸ by decide)
  · exact iff_of_false (by decide) (h2 ▸ by decide)
  · exact iff_of_true rfl (.inr h3)
  · exact iff_of_false (by decide) (not_or.2 ⟨h0, h3⟩)

/-- The rest of what a completion logs gives no block. -/
theorem BlockTrack.after_done (t : BlockTrack) (index id : ℕ) (m : Machine) :
    t.after (doneLog index id m) = t.next (.done id m.inst.pb) := by
  show BlockTrack.after (t.next (.done id m.inst.pb)) _ = _
  rw [BlockTrack.after_append]
  unfold stageLog
  split_ifs <;> rfl

/-- The completed call gives what the switch of the completion stores. -/
theorem Tracks.done {m : Machine} {t : BlockTrack} {c : Call} {pb : UsbPB} (h : Tracks m t)
    (hcalls : m.calls = [c]) (hw : pb.usbRefcon &&& kStageMask = c.stage) (index : ℕ) :
    (t.next (.done c.id pb)).blocks =
      held (stageDone index c.id (m.finished pb)).inst := by
  obtain ⟨hlast, hempty⟩ := h.call c (hcalls ▸ List.mem_singleton_self c)
  obtain ⟨hring, hread⟩ := completionStage_blocks index c.id ((m.finished pb).log (.complete c.id))
  have hring' : (stageDone index c.id (m.finished pb)).inst.ringBuffer =
      if c.stage = kAllocRingState ∧ pb.usbStatus = usbNoErr then pb.usbBuffer
      else m.inst.ringBuffer := hw ▸ hring
  have hread' : (stageDone index c.id (m.finished pb)).inst.readBufferBase =
      if c.stage = kAllocReadBufferState ∧ pb.usbStatus = usbNoErr then pb.usbBuffer
      else m.inst.readBufferBase := hw ▸ hread
  have hblocks : (t.next (.done c.id pb)).blocks =
      t.blocks ++ if stageCall c.stage = .allocMem ∧ pb.usbStatus = usbNoErr then
        heldBlock pb.usbBuffer else [] := by
    simp only [BlockTrack.next, hlast, Option.some.injEq, Prod.mk.injEq, true_and, heldBlock]
    split_ifs <;> simp_all
  rw [hblocks, h.blocks, held, held, hring', hread']
  simp only [stageCall_alloc]
  by_cases hok : pb.usbStatus = usbNoErr
  · simp only [hok, and_true]
    by_cases h0 : c.stage = kAllocRingState
    · have hnone : m.inst.readBufferBase = 0 := hempty.read (by rw [h0]; decide)
      simp [h0, hempty.ring h0, hnone, heldBlock, kAllocRingState, kAllocReadBufferState]
    by_cases h3 : c.stage = kAllocReadBufferState
    · have hnone : m.inst.readBufferBase = 0 := hempty.read (by rw [h3]; decide)
      simp [h3, hnone, heldBlock, kAllocRingState, kAllocReadBufferState]
    · simp [h0, h3]
  · simp [hok]

/-- **Every step** keeps the books. -/
theorem FlatStep.tracks {index : ℕ} {m m' : Machine} {L : List UslEntry} {t : BlockTrack}
    (h : FlatStep index m L m') (ht : Tracks m t) : Tracks m' (t.after L) := by
  cases h with
  | @issue pb hcalls hr hs hpb =>
    refine ⟨ht.blocks, ?_, fun hnone => absurd hnone (List.cons_ne_nil _ _)⟩
    intro c hc
    rw [show ((m.updPB fun _ => pb).issue m.refcon).calls = [⟨m.nextId, m.refcon⟩] from
      congrArg (_ :: ·) hcalls] at hc
    obtain rfl := List.mem_singleton.1 hc
    obtain ⟨hring, hread⟩ := ht.ready hcalls hr hs
    exact ⟨rfl, hring, hread⟩
  | @done c pb hcalls hw =>
    have hnone : (stageDone index c.id (m.finished pb)).calls = [] :=
      (stageDone_quiet index c.id (m.finished pb)).calls
    rw [BlockTrack.after_done]
    refine ⟨ht.done hcalls hw index, by simp [hnone], ?_⟩
    intro _ _ hs
    obtain ⟨-, hring, hread⟩ := ht.call c (hcalls ▸ List.mem_singleton_self c)
    have hempty : Vacant ((m.finished pb).refcon &&& kStageMask) (m.finished pb).inst :=
      (show _ = c.stage from hw) ▸ ⟨hring, hread⟩
    exact stageDone_vacant index c.id hempty hs
  | stop =>
    refine ⟨ht.blocks, ?_, ?_⟩
    · intro c hc
      cases hc
    · intro _ _ hs
      exact absurd hs (by decide : ¬IsStage kReturnFromDriver)
  | tokens depth token inFlight =>
    refine ⟨ht.blocks, ?_, ?_⟩
    · intro c hc
      obtain ⟨hlast, hring, hread⟩ := ht.call c hc
      exact ⟨hlast, hring, hread⟩
    · intro hcalls hr hs
      obtain ⟨hring, hread⟩ := ht.ready hcalls hr hs
      exact ⟨hring, hread⟩

/-- **Every run**: the instance holds what it obtained. -/
theorem FlatRun.tracks {index : ℕ} {m m' : Machine} {L : List UslEntry} {t : BlockTrack}
    (h : FlatRun index m L m') (ht : Tracks m t) : Tracks m' (t.after L) := by
  refine h.inv (I := fun L m => Tracks m (t.after L)) ht ?_
  intro L m L' m' hI hs
  rw [BlockTrack.after_append]
  exact hs.tracks hI

/-! ## Connections -/

/-- A connection between two events, with its books. -/
structure Booked (c : Connection) : Prop where
  resting : Resting c
  tracks : Tracks c.machine (BlockTrack.after ⟨none, []⟩ c.log)
  word : ∀ call ∈ c.calls, c.inst.pb.usbRefcon &&& kStageMask = call.stage
  clear : ∀ w, c.phase = .clear w → c.calls ≠ [] → w = c.inst.pb.usbRefcon

/-- The instance of a connection holds the blocks that it obtained. -/
theorem Booked.obtained {c : Connection} (h : Booked c) :
    obtained c.log = held c.inst := h.tracks.blocks

theorem Settled.word {m : Machine} (h : Settled m) :
    ∀ call ∈ m.calls, m.refcon &&& kStageMask = call.stage := by
  intro call hcall
  obtain ⟨c, hb, hid⟩ := h.busy (List.mem_map_of_mem hcall)
  rw [hb.calls] at hcall
  rw [List.mem_singleton.1 hcall, hb.refcon]
  exact hb.isStage.flags.2.1

section
variable {usl : ℕ → UslAnswer} {index : ℕ} {c c' : Connection}

theorem Booked.start (interfaceRef conn nextId : ℕ) (slot : Instance) :
    Booked (openConnection usl index interfaceRef conn nextId slot) := by
  have hlive : Live (openConnection usl index interfaceRef conn nextId slot) :=
    openConnection_live interfaceRef conn nextId slot
  have hclean : Clean ⟨initInstance interfaceRef conn slot, [], nextId, []⟩ :=
    ⟨by simp, by simp [completed], by simp [completed]⟩
  have hready : Ready ⟨initInstance interfaceRef conn slot, [], nextId, []⟩ :=
    ⟨rfl, (by decide : IsStage kAllocRingState), fun h => absurd rfl h⟩
  have hnone : Tracks ⟨initInstance interfaceRef conn slot, [], nextId, []⟩ ⟨none, []⟩ := by
    refine ⟨rfl, ?_, fun _ _ _ => ⟨fun _ => rfl, fun _ => rfl⟩⟩
    intro call hcall
    cases hcall
  have hrun : FlatRun index ⟨initInstance interfaceRef conn slot, [], nextId, []⟩
      (transactionLog usl index transFuel ⟨initInstance interfaceRef conn slot, [], nextId, []⟩)
      (startTransaction usl index ⟨initInstance interfaceRef conn slot, [], nextId, []⟩) :=
    transaction_flat (Nat.lt_succ_self _) (Nat.zero_le _) rfl hready hclean
  have htracks := hrun.tracks hnone
  refine ⟨.start interfaceRef conn nextId slot, ⟨htracks.blocks, htracks.call, htracks.ready⟩,
    hlive.settled.word, ?_⟩
  intro w hw
  cases hw

/-- A store into fields that have nothing to do with the blocks. -/
theorem Booked.store (h : Booked c) {f : Instance → Instance} {p : RemovalPhase}
    (hres : Resting (c.upd f p)) (hpb : (f c.inst).pb = c.inst.pb)
    (hring : (f c.inst).ringBuffer = c.inst.ringBuffer)
    (hread : (f c.inst).readBufferBase = c.inst.readBufferBase)
    (hrem : (f c.inst).removing = false → c.inst.removing = false)
    (hp : ∀ w, p = .clear w → w = c.inst.pb.usbRefcon) : Booked (c.upd f p) := by
  have hblocks : held (f c.inst) = held c.inst := by
    rw [held, hring, hread, held]
  have hempty : ∀ stage, Vacant stage c.inst → Vacant stage (f c.inst) := fun stage he =>
    ⟨fun hs => hring.trans (he.ring hs), fun hs => hread.trans (he.read hs)⟩
  refine ⟨hres, ⟨h.tracks.blocks.trans hblocks.symm, ?_, ?_⟩, ?_, ?_⟩
  · intro call hcall
    obtain ⟨hlast, he⟩ := h.tracks.call call hcall
    exact ⟨hlast, hempty _ he⟩
  · intro hcalls hr hs
    have hword : (f c.inst).pb.usbRefcon = c.inst.pb.usbRefcon := congrArg UsbPB.usbRefcon hpb
    have hs' : IsStage (f c.inst).pb.usbRefcon := hs
    rw [hword] at hs'
    show Vacant (f c.inst).pb.usbRefcon (f c.inst)
    rw [hword]
    exact hempty _ (h.tracks.ready hcalls (hrem hr) hs')
  · intro call hcall
    show (f c.inst).pb.usbRefcon &&& kStageMask = call.stage
    rw [hpb]
    exact h.word call hcall
  · intro w hw _
    show w = (f c.inst).pb.usbRefcon
    rw [hpb]
    exact hp w hw

/-- A completion while the instance is being removed is one step. -/
theorem completeCall_flat_removing {m : Machine} {c : Call} (hcalls : m.calls = [c])
    (hr : m.inst.removing = true) (hw : m.refcon &&& kStageMask = c.stage) (r : UslResult) :
    FlatRun index m (completeLog usl index c.id r m) (completeCall usl index c.id r m) := by
  obtain ⟨pb, heq, hword⟩ := m.finish_finished hcalls r
  unfold completeLog completeCall
  rw [heq]
  refine completionProc_flat hcalls (hword.symm ▸ hw) ?_
  intro hr'
  exact absurd (hr.symm.trans hr') (by decide)

/-- **A completion.** -/
theorem Booked.completion (h : Booked c) {id : ℕ} (hid : id ∈ c.calls.map Call.id) (r : UslResult)
    (hres : Resting (c.ran (completeCall usl index id r c.machine)
      (completeLog usl index id r c.machine))) :
    Booked (c.ran (completeCall usl index id r c.machine)
      (completeLog usl index id r c.machine)) := by
  have hkeep : ∀ {m'}, FlatRun index c.machine (completeLog usl index id r c.machine) m' →
      Tracks m' (BlockTrack.after ⟨none, []⟩ (c.log ++ completeLog usl index id r c.machine)) := by
    intro m' hrun
    rw [BlockTrack.after_append]
    exact hrun.tracks h.tracks
  rcases h.resting.conn with hlive | hleaving
  · have hlive' : Live (c.ran (completeCall usl index id r c.machine)
        (completeLog usl index id r c.machine)) := hlive.completion hid r
    have htracks := hkeep (completeCall_flat hlive.settled hlive.removing hid r)
    refine ⟨hres, ⟨htracks.blocks, htracks.call, htracks.ready⟩, hlive'.settled.word, ?_⟩
    intro w hw
    exact absurd (hlive.phase.symm.trans hw) (by simp)
  · obtain ⟨call, hcall, rfl⟩ := List.mem_map.1 hid
    have hcalls : c.calls = [call] := by
      obtain ⟨other, hother⟩ := List.length_eq_one_iff.1 (le_antisymm h.resting.calls
        (List.length_pos_of_mem hcall))
      rw [hother] at hcall ⊢
      rw [List.mem_singleton.1 hcall]
    have htracks := hkeep (completeCall_flat_removing hcalls hleaving.removing
      (h.word call hcall) r)
    have hnone : (completeCall usl index call.id r c.machine).calls = [] := by
      rw [completeCall, completionProc_removing hleaving.removing,
        stageDone_calls h.resting.calls hid]
    refine ⟨hres, ⟨htracks.blocks, htracks.call, htracks.ready⟩, ?_, ?_⟩
    · intro other hother
      rw [show (c.ran _ _).calls = [] from hnone] at hother
      cases hother
    · intro w _ hne
      exact absurd hnone hne

/-- A notification in the slot has set `removing`. -/
theorem Resting.removing (h : Resting c) (hp : c.phase ≠ .away) : c.inst.removing = true :=
  h.conn.elim (fun hlive => absurd hlive.phase hp) Leaving.removing

/-- **A removal notification.** -/
theorem Booked.removal (h : Booked c) {accepted : Bool} (hres : Resting c')
    (hs : removalStep c accepted = some c') : Booked c' := by
  unfold removalStep at hs
  split at hs
  next => cases hs
  next =>
    obtain rfl := Option.some.inj hs
    exact h.store hres rfl rfl rfl (fun hr => hr) (by simp)
  next =>
    obtain rfl := Option.some.inj hs
    exact h.store hres rfl rfl rfl (fun hr => hr) (by simp)
  next =>
    split_ifs at hs
    all_goals
      obtain rfl := Option.some.inj hs
      exact h.store hres rfl rfl rfl (fun hr => hr) (by simp)
  next hp =>
    have hr : c.inst.removing = true := h.resting.removing (by rw [hp]; simp)
    split_ifs at hs
    · -- a refused abort drops the read
      obtain rfl := Option.some.inj hs
      refine ⟨hres, ⟨h.tracks.blocks, ?_, ?_⟩, ?_, fun w hw => absurd hw (by simp)⟩
      · intro call hcall
        exact h.tracks.call call (List.mem_of_mem_filter hcall)
      · intro _ hr'
        exact absurd (hr.symm.trans hr') (by decide)
      · intro call hcall
        exact h.word call (List.mem_of_mem_filter hcall)
    · obtain rfl := Option.some.inj hs
      exact h.store hres rfl rfl rfl (fun hr => hr) (by simp)
  next =>
    obtain rfl := Option.some.inj hs
    refine h.store hres rfl rfl rfl (fun hr => hr) ?_
    intro w hw
    exact (RemovalPhase.clear.inj hw).symm
  next w hp =>
    -- the word that was read is still the instance's, unless nothing is outstanding
    have hr : c.inst.removing = true := h.resting.removing (by rw [hp]; simp)
    obtain rfl := Option.some.inj hs
    refine ⟨hres, ⟨h.tracks.blocks, ?_, ?_⟩, ?_, ?_⟩
    · intro call hcall
      obtain ⟨hlast, hring, hread⟩ := h.tracks.call call hcall
      exact ⟨hlast, hring, hread⟩
    · intro _ hr'
      exact absurd (hr.symm.trans hr') (by decide)
    · intro call hcall
      show (w &&& ~~~kCompletionPending) &&& kStageMask = call.stage
      rw [h.clear w hp (List.ne_nil_of_mem hcall), UInt32.and_assoc,
        show ~~~kCompletionPending &&& kStageMask = kStageMask by decide]
      exact h.word call hcall
    · intro w' hw'
      cases hw'

/-- **Every event** keeps the books. -/
theorem Booked.step (h : Booked c) {e : ConnectionEvent}
    (hs : connectionStep usl index c e = some c') : Booked c' := by
  have hres : Resting c' := h.resting.step hs
  cases e with
  | completion id r =>
    simp only [connectionStep] at hs
    split_ifs at hs with hid
    obtain rfl := Option.some.inj hs
    exact h.completion hid r hres
  | others n =>
    obtain rfl := Option.some.inj hs
    exact ⟨hres, ⟨h.tracks.blocks, h.tracks.call, h.tracks.ready⟩, h.word, h.clear⟩
  | setEventCallback callback refcon =>
    simp only [connectionStep] at hs
    split_ifs at hs
    obtain rfl := Option.some.inj hs
    exact h.store hres rfl rfl rfl (fun hr => hr) (by simp)
  | notify =>
    simp only [connectionStep] at hs
    split_ifs at hs
    obtain rfl := Option.some.inj hs
    exact h.store hres rfl rfl rfl (fun hr => absurd hr.symm Bool.false_ne_true) (by simp)
  | notifyStep accepted => exact h.removal hres hs

end

end Usbmidi9
