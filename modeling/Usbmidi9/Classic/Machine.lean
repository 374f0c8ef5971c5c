/-
  USBMIDI9 — what the class driver's machine keeps, and one call per parameter
  block.

  * `Kept` holds of every transition from every state: the client's fields and
    the nesting depth stay, and the hook that is called is the instance's own
    (`initiateTransaction_kept`, `completionProc_kept`);
  * `initiateTransaction_enough`: the bound on the nesting is never reached;
  * `Settled` is the invariant between external events: one call is outstanding
    exactly if the pending bit is set, whatever the library answers and however
    deep its answers nest (`initiateTransaction_settled`);
  * `one_call_per_block` is the result over runs.
-/
import Usbmidi9.Classic.Instance
import Usbmidi9.Lib.Reach

namespace Usbmidi9

/-! ## What every transition keeps -/

/-- The fields of an instance that only its owner and its client set. -/
structure Client where
  removing : Bool
  conn : ℕ
  eventCallback : Option ℕ
  eventRefcon : UInt32
  interfaceRef : ℕ

def Instance.client (inst : Instance) : Client :=
  ⟨inst.removing, inst.conn, inst.eventCallback, inst.eventRefcon, inst.interfaceRef⟩

theorem Instance.hook_eq {a b : Instance} (h : b.client = a.client) : b.hook = a.hook := by
  rw [Instance.hook, Instance.hook, show b.eventCallback = a.eventCallback from
    congrArg Client.eventCallback h, show b.eventRefcon = a.eventRefcon from
    congrArg Client.eventRefcon h]

/-- The hook of the instance is called, or a stall is cleared. -/
def Entry.IsSide (inst : Instance) : Entry → Prop
  | .callback _ hook _ => inst.hook = some hook
  | .clearStall _ => True
  | _ => False

/-- A call was issued for a connection, or one completed. -/
def Entry.IsCall (conn : ℕ) : Entry → Prop
  | .issue _ c _ _ => c = conn
  | .complete _ => True
  | _ => False

/-- An entry that a machine writes for its instance. -/
def Entry.Own (inst : Instance) (e : Entry) : Prop := e.IsCall inst.conn ∨ e.IsSide inst

theorem Entry.IsSide.same {a b : Instance} (h : b.client = a.client) {e : Entry}
    (he : e.IsSide b) : e.IsSide a := by
  cases e with
  | callback id hook index => exact (Instance.hook_eq h).symm.trans he
  | _ => exact he

theorem Entry.Own.same {a b : Instance} (h : b.client = a.client) {e : Entry} (he : e.Own b) :
    e.Own a := by
  have hconn : b.conn = a.conn := congrArg Client.conn h
  exact he.imp (fun hcall => hconn ▸ hcall) (·.same h)

/-- A transition between two calls: nothing but the hook is called. -/
structure Quiet (m m' : Machine) : Prop where
  client : m'.inst.client = m.inst.client
  depth : m'.inst.transDepth = m.inst.transDepth
  token : m'.inst.callToken = m.inst.callToken
  calls : m'.calls = m.calls
  nextId : m'.nextId = m.nextId
  trace : ∃ new, m'.trace = m.trace ++ new ∧ ∀ e ∈ new, e.IsSide m.inst

/-- What every transition keeps: the client's fields, the nesting depth, and a
    trace that grows by the instance's own entries. -/
structure Kept (m m' : Machine) : Prop where
  client : m'.inst.client = m.inst.client
  depth : m'.inst.transDepth = m.inst.transDepth
  nextId : m.nextId ≤ m'.nextId
  trace : ∃ new, m'.trace = m.trace ++ new ∧ ∀ e ∈ new, e.Own m.inst

namespace Quiet
variable {m m' m'' : Machine}

theorem refl : Quiet m m := ⟨rfl, rfl, rfl, rfl, rfl, [], by simp, by simp⟩

theorem trans (h : Quiet m m') (h' : Quiet m' m'') : Quiet m m'' := by
  obtain ⟨new, hn, ho⟩ := h.trace
  obtain ⟨new', hn', ho'⟩ := h'.trace
  refine ⟨h'.client.trans h.client, h'.depth.trans h.depth, h'.token.trans h.token,
    h'.calls.trans h.calls, h'.nextId.trans h.nextId, new ++ new', ?_, ?_⟩
  · rw [hn', hn, List.append_assoc]
  · intro e he
    exact (List.mem_append.1 he).elim (ho e) fun he => (ho' e he).same h.client

theorem upd (m : Machine) {f : Instance → Instance} (hf : (f m.inst).client = m.inst.client)
    (hd : (f m.inst).transDepth = m.inst.transDepth)
    (ht : (f m.inst).callToken = m.inst.callToken) : Quiet m (m.upd f) :=
  ⟨hf, hd, ht, rfl, rfl, [], by simp [Machine.upd], by simp⟩

theorem setRefcon (m : Machine) (w : UInt32) : Quiet m (m.setRefcon w) :=
  ⟨rfl, rfl, rfl, rfl, rfl, [], by simp [Machine.setRefcon, Machine.updPB, Machine.upd], by simp⟩

theorem side (m : Machine) {e : Entry} (h : e.IsSide m.inst) : Quiet m (m.log e) :=
  ⟨rfl, rfl, rfl, rfl, rfl, [e], rfl, by simpa using h⟩

theorem advance (m : Machine) (next : UInt32) {f : Instance → Instance}
    (hf : (f m.inst).client = m.inst.client) (hd : (f m.inst).transDepth = m.inst.transDepth)
    (ht : (f m.inst).callToken = m.inst.callToken) : Quiet m (m.upd (·.advance next f)) := by
  unfold Instance.advance
  by_cases h : m.inst.pb.usbStatus = usbNoErr
  · exact upd m (by rw [if_pos h]; exact hf) (by rw [if_pos h]; exact hd)
      (by rw [if_pos h]; exact ht)
  · exact upd m (by rw [if_neg h]; rfl) (by rw [if_neg h]) (by rw [if_neg h])

theorem kept (h : Quiet m m') : Kept m m' :=
  ⟨h.client, h.depth, h.nextId.ge, h.trace.imp fun _ hn => ⟨hn.1, fun e he => Or.inr (hn.2 e he)⟩⟩

end Quiet

namespace Kept
variable {m m' m'' : Machine}

theorem refl : Kept m m := Quiet.refl.kept

theorem trans (h : Kept m m') (h' : Kept m' m'') : Kept m m'' := by
  obtain ⟨new, hn, ho⟩ := h.trace
  obtain ⟨new', hn', ho'⟩ := h'.trace
  refine ⟨h'.client.trans h.client, h'.depth.trans h.depth, h.nextId.trans h'.nextId,
    new ++ new', ?_, ?_⟩
  · rw [hn', hn, List.append_assoc]
  · intro e he
    exact (List.mem_append.1 he).elim (ho e) fun he => (ho' e he).same h.client

theorem upd (m : Machine) {f : Instance → Instance} (hf : (f m.inst).client = m.inst.client)
    (hd : (f m.inst).transDepth = m.inst.transDepth) : Kept m (m.upd f) :=
  ⟨hf, hd, le_rfl, [], by simp [Machine.upd], by simp⟩

theorem updPB (m : Machine) (f : UsbPB → UsbPB) : Kept m (m.updPB f) :=
  upd m (f := fun inst => { inst with pb := f inst.pb }) rfl rfl

theorem setRefcon (m : Machine) (w : UInt32) : Kept m (m.setRefcon w) := updPB m _

theorem complete (m : Machine) (id : ℕ) : Kept m (m.log (.complete id)) :=
  ⟨rfl, rfl, le_rfl, [_], rfl, by simp [Entry.Own, Entry.IsCall]⟩

theorem finish (m : Machine) (id : ℕ) (r : UslResult) : Kept m (m.finish id r) :=
  ⟨rfl, rfl, le_rfl, [], by simp [Machine.finish, Machine.updPB, Machine.upd], by simp⟩

theorem refuse (m : Machine) (id : ℕ) : Kept m (m.refuse id) :=
  ⟨rfl, rfl, le_rfl, [], by simp [Machine.refuse], by simp⟩

theorem issue (m : Machine) (stage : UInt32) : Kept m (m.issue stage) :=
  ⟨rfl, rfl, Nat.le_succ _, [_], rfl, by simp [Entry.Own, Entry.IsCall]⟩

/-- A transaction that entered and leaves. -/
theorem leave (h : Kept m.enter m') : Kept m m'.leave := by
  obtain ⟨new, hn, ho⟩ := h.trace
  refine ⟨h.client, ?_, h.nextId, new, hn, ho⟩
  show m'.inst.transDepth - 1 = _
  rw [h.depth]
  exact Nat.add_sub_cancel ..

theorem takeToken (m : Machine) : Kept m m.takeToken :=
  upd m (f := fun inst => { inst with
    callToken := inst.callToken + 1, callInFlight := inst.callToken + 1 }) rfl rfl

end Kept

theorem readCompleted_quiet (index id : ℕ) (m : Machine) : Quiet m (readCompleted index id m) := by
  have hread : Quiet m (m.upd fun inst => { inst with
      lastReadStatus := m.inst.pb.usbStatus, lastReadCount := m.inst.pb.usbData.length }) :=
    .upd m rfl rfl rfl
  have hclear : ∀ m' : Machine, Quiet m' (if m.inst.pb.usbStatus = usbPipeStalledError then
      m'.log (.clearStall m'.inst.bulkInPipe) else m') := fun m' => by
    split_ifs
    · exact .side m' trivial
    · exact .refl
  unfold readCompleted
  refine .trans (.trans ?_ (hclear _)) (.setRefcon _ _)
  simp only
  split_ifs
  · have hring := hread.trans (.upd _ (f := fun inst => { inst with
      ring := (um9RingEnqueue ringSize inst.ring m.inst.pb.usbData).1 }) rfl rfl rfl)
    split
    next hook hhook => exact hring.trans (.side _ hhook)
    next => exact hring
  · exact hread

/-- The switch of the completion issues nothing. -/
theorem completionStage_quiet (index id : ℕ) (m : Machine) :
    Quiet m (completionStage index id m) := by
  have h0 : Quiet m (m.upd fun inst => { inst with callInFlight := 0 }) := .upd m rfl rfl rfl
  unfold completionStage
  apply h0.trans
  simp only
  split_ifs
  · exact .advance _ _ rfl rfl rfl
  · exact .advance _ _ rfl rfl rfl
  · exact .advance _ _ rfl rfl rfl
  · exact .advance _ _ rfl rfl rfl
  · exact readCompleted_quiet index id _
  · exact .setRefcon _ _

section
variable {usl : ℕ → UslAnswer} {index : ℕ} {initiate : Machine → Machine}

theorem stageDone_quiet (index id : ℕ) (m : Machine) :
    Quiet (m.log (.complete id)) (stageDone index id m) :=
  (completionStage_quiet index id _).trans (.setRefcon _ _)

theorem completionProc_kept (hinit : ∀ m, Kept m (initiate m)) (id : ℕ) (m : Machine) :
    Kept m (completionProc initiate index id m) := by
  have h : Kept m (stageDone index id m) := .trans (.complete m id) (stageDone_quiet index id m).kept
  unfold completionProc
  simp only
  split_ifs
  · exact h.trans (hinit _)
  · exact h

theorem callUsl_kept (hinit : ∀ m, Kept m (initiate m)) (id : ℕ) (m : Machine) :
    Kept m (callUsl usl index initiate id m).1 := by
  unfold callUsl
  split
  · exact .refl
  · exact (Kept.finish m id _).trans (completionProc_kept hinit id _)
  · exact .finish m id _
  · exact .refuse m id

theorem callReturned_kept (hinit : ∀ m, Kept m (initiate m)) (id : ℕ) (token : UInt32)
    (m : Machine) (err : ℤ) : Kept m (callReturned index initiate id token m err) := by
  unfold callReturned
  split_ifs
  · exact .refl
  · exact .refl
  · exact ((Kept.setRefcon m _).trans (.updPB _ _)).trans (completionProc_kept hinit id _)
  · exact .refl
  · exact .setRefcon m _

/-- **Every transaction** keeps the client's fields and the depth. -/
theorem initiateTransaction_kept (fuel : ℕ) (m : Machine) :
    Kept m (initiateTransaction usl index fuel m) := by
  induction fuel generalizing m with
  | zero => exact .refl
  | succ fuel ih =>
    unfold initiateTransaction
    simp only
    split_ifs
    · exact .setRefcon m _
    · exact .trans (.leave .refl) (.setRefcon _ _)
    · split
      · exact .trans (.leave (.takeToken _)) (.setRefcon _ _)
      · refine .leave (.trans (.trans ?_ (callUsl_kept ih _ _)) (callReturned_kept ih _ _ _ _))
        exact ((Kept.takeToken _).trans (.updPB _ _)).trans (.issue _ _)

/-! ## The bound on the nesting -/

theorem completionProc_congr {i₁ i₂ : Machine → Machine} (id : ℕ) (m : Machine)
    (h : ∀ m', m'.inst.transDepth = m.inst.transDepth → i₁ m' = i₂ m') :
    completionProc i₁ index id m = completionProc i₂ index id m := by
  have hd : (stageDone index id m).inst.transDepth = m.inst.transDepth :=
    (stageDone_quiet index id m).depth
  unfold completionProc
  simp only
  rw [h _ hd]

theorem callUsl_congr {i₁ i₂ : Machine → Machine} {m : Machine} (id : ℕ)
    (h : ∀ m', m'.inst.transDepth = m.inst.transDepth → i₁ m' = i₂ m') :
    callUsl usl index i₁ id m = callUsl usl index i₂ id m := by
  unfold callUsl
  split
  · rfl
  · rw [completionProc_congr id (m.finish id _) h]
  · rfl
  · rfl

theorem callReturned_congr {i₁ i₂ : Machine → Machine} {m : Machine} (id : ℕ) (token : UInt32)
    (err : ℤ) (h : ∀ m', m'.inst.transDepth = m.inst.transDepth → i₁ m' = i₂ m') :
    callReturned index i₁ id token m err = callReturned index i₂ id token m err := by
  unfold callReturned
  rw [completionProc_congr id (m.clearPending.updPB _) h]

/-- The body of `USBMIDI9InitiateTransaction`, where `initiate` is called in its place. -/
def transactionBody (usl : ℕ → UslAnswer) (index : ℕ) (initiate : Machine → Machine)
    (m : Machine) : Machine :=
  if m.inst.removing then m.setRefcon kReturnFromDriver
  else if maxSyncDepth < m.enter.inst.transDepth then m.enter.leave.setRefcon kReturnFromDriver
  else
    let issued := m.enter.refcon &&& kStageMask
    let m := m.enter.takeToken
    let token := m.inst.callToken
    match stagePB issued m.inst with
    | none => m.leave.setRefcon kReturnFromDriver
    | some pb =>
      let id := m.nextId
      let r := callUsl usl index initiate id ((m.updPB fun _ => pb).issue issued)
      (callReturned index initiate id token r.1 r.2).leave

theorem initiateTransaction_succ (fuel : ℕ) (m : Machine) :
    initiateTransaction usl index (fuel + 1) m =
      transactionBody usl index (initiateTransaction usl index fuel) m := rfl

/-- A transaction makes nested ones one level deeper, up to the bound. -/
theorem transactionBody_congr {i₁ i₂ : Machine → Machine} {m : Machine} (h₂ : ∀ m, Kept m (i₂ m))
    (h : m.inst.transDepth < maxSyncDepth →
      ∀ m', m'.inst.transDepth = m.inst.transDepth + 1 → i₁ m' = i₂ m') :
    transactionBody usl index i₁ m = transactionBody usl index i₂ m := by
  unfold transactionBody
  simp only
  split_ifs with hr hdeep
  · rfl
  · rfl
  split
  · rfl
  have hnext := h (Nat.lt_of_succ_le (Nat.le_of_not_lt hdeep))
  rw [callUsl_congr _ hnext]
  refine congrArg Machine.leave (callReturned_congr _ _ _ ?_)
  intro m' hm'
  refine hnext m' ?_
  rw [hm', (callUsl_kept h₂ _ _).depth]
  rfl

/-- **The bound is never reached.**  The transaction is unrolled as often as there are
    depths still allowed; what `bottom` does does not matter. -/
theorem unrolled_eq (bottom : Machine → Machine) {fuel : ℕ} {m : Machine}
    (hd : m.inst.transDepth ≤ maxSyncDepth) (hfuel : maxSyncDepth < fuel + m.inst.transDepth) :
    (transactionBody usl index)^[fuel] bottom m = initiateTransaction usl index fuel m := by
  induction fuel generalizing m with
  | zero => omega
  | succ fuel ih =>
    rw [Function.iterate_succ_apply', initiateTransaction_succ]
    apply transactionBody_congr (initiateTransaction_kept fuel)
    intro hlt m' hm'
    exact ih (by omega) (by omega)

/-- Any two bounds that leave room for the depths still allowed give the same
    transaction. -/
theorem initiateTransaction_enough {f₁ f₂ : ℕ} {m : Machine} (hd : m.inst.transDepth ≤ maxSyncDepth)
    (h₁ : maxSyncDepth < f₁ + m.inst.transDepth) (h₂ : maxSyncDepth < f₂ + m.inst.transDepth) :
    initiateTransaction usl index f₁ m = initiateTransaction usl index f₂ m := by
  induction f₁ generalizing f₂ m with
  | zero => omega
  | succ f₁ ih =>
    obtain ⟨f₂, rfl⟩ : ∃ k, f₂ = k + 1 := ⟨f₂ - 1, by omega⟩
    rw [initiateTransaction_succ, initiateTransaction_succ]
    apply transactionBody_congr (initiateTransaction_kept f₂)
    intro hlt m' hm'
    exact ih (by omega) (by omega) (by omega)

end

/-! ## Refcon words -/

/-- The words that name a stage. -/
def IsStage (w : UInt32) : Prop := w ≤ kReadBulkInPipeState

instance (w : UInt32) : Decidable (IsStage w) := inferInstanceAs (Decidable (_ ≤ _))

theorem IsStage.cases {w : UInt32} (h : IsStage w) : w = kAllocRingState ∨
    w = kConfigureInterfaceState ∨ w = kFindBulkInPipeState ∨ w = kAllocReadBufferState ∨
      w = kReadBulkInPipeState := by
  have h4 : w.toNat ≤ 4 := h
  simp only [← UInt32.toNat_inj]
  show w.toNat = 0 ∨ w.toNat = 1 ∨ w.toNat = 2 ∨ w.toNat = 3 ∨ w.toNat = 4
  omega

/-- What the flags do to a stage's word. -/
theorem IsStage.flags {w : UInt32} (h : IsStage w) :
    w &&& kStageMask = w ∧ (w ||| kCompletionPending) &&& kStageMask = w ∧
      w &&& ~~~kCompletionPending = w ∧
      (w ||| kCompletionPending) &&& ~~~kCompletionPending = w ∧
      w &&& kReturnFromDriver = 0 ∧ (w ||| kCompletionPending) &&& kReturnFromDriver = 0 ∧
      w &&& kCompletionPending = 0 ∧ (w ||| kCompletionPending) &&& kCompletionPending ≠ 0 := by
  rcases h.cases with rfl | rfl | rfl | rfl | rfl <;> decide

/-! ## One call per parameter block -/

/-- The calls whose completion transition was executed. -/
def completed : List Entry → List ℕ
  | [] => []
  | .complete id :: es => id :: completed es
  | _ :: es => completed es

theorem completed_append (es es' : List Entry) :
    completed (es ++ es') = completed es ++ completed es' := by
  fun_induction completed es <;> simp_all [completed]

theorem completed_callbacks {inst : Instance} {es : List Entry}
    (h : ∀ e ∈ es, e.IsSide inst) : completed es = [] := by
  induction es with
  | nil => rfl
  | cons e es ih =>
    have he := h e (by simp)
    cases e with
    | callback | clearStall => exact ih fun e he => h e (by simp [he])
    | _ => exact he.elim

/-- What the trace of a well-behaved machine looks like: nothing was issued
    while a call was outstanding, and no call was completed twice. -/
structure Clean (m : Machine) : Prop where
  issues : ∀ id conn stage n, .issue id conn stage n ∈ m.trace → n = 0
  nodup : (completed m.trace ++ m.calls.map Call.id).Nodup
  fresh : ∀ id ∈ completed m.trace ++ m.calls.map Call.id, id < m.nextId

theorem Clean.quiet {m m' : Machine} (h : Clean m) (hq : Quiet m m') : Clean m' := by
  obtain ⟨new, hn, ho⟩ := hq.trace
  have hc : completed m'.trace = completed m.trace := by
    rw [hn, completed_append, completed_callbacks ho, List.append_nil]
  refine ⟨?_, ?_, ?_⟩
  · intro id conn stage n hi
    rw [hn, List.mem_append] at hi
    exact hi.elim (h.issues id conn stage n) fun hi => (ho _ hi).elim
  · rw [hc, hq.calls]; exact h.nodup
  · rw [hc, hq.calls, hq.nextId]; exact h.fresh

/-- No call is outstanding and a stage is about to be issued. -/
structure Ready (m : Machine) : Prop where
  calls : m.calls = []
  isStage : IsStage m.refcon
  pipe : m.inst.bulkInPipe ≠ 0 → kAllocReadBufferState ≤ m.refcon

/-- The machine waits for `c`. -/
structure Busy (m : Machine) (c : Call) : Prop where
  calls : m.calls = [c]
  isStage : IsStage c.stage
  refcon : m.refcon = c.stage ||| kCompletionPending
  pipe : m.inst.bulkInPipe ≠ 0 → kAllocReadBufferState ≤ c.stage

/-- The machine has stopped. -/
structure Stopped (m : Machine) : Prop where
  calls : m.calls = []
  refcon : m.refcon = kReturnFromDriver

/-- Call `id` of stage `st` has just left the library. -/
structure Due (m : Machine) (id : ℕ) (st : UInt32) : Prop where
  calls : m.calls = []
  isStage : IsStage st
  word : m.refcon &&& kStageMask = st
  pipe : m.inst.bulkInPipe ≠ 0 → kAllocReadBufferState ≤ st
  clean : Clean (m.log (.complete id))

/-- Between two calls: stopped, or at a stage the pipe allows. -/
def NextOk (m : Machine) : Prop :=
  m.refcon = kReturnFromDriver ∨
    IsStage m.refcon ∧ (m.inst.bulkInPipe ≠ 0 → kAllocReadBufferState ≤ m.refcon)

theorem advance_ok (m : Machine) {next : UInt32} {f : Instance → Instance} (hn : IsStage next)
    (hp : (f m.inst).bulkInPipe ≠ 0 → kAllocReadBufferState ≤ next) :
    NextOk (m.upd (·.advance next f)) := by
  simp only [NextOk, Machine.upd, Instance.advance]
  split_ifs
  · exact .inr ⟨hn, hp⟩
  · exact .inl rfl

theorem readCompleted_ok (index id : ℕ) (m : Machine) : NextOk (readCompleted index id m) := by
  have h : readNext m.inst.pb.usbStatus = kReturnFromDriver ∨
      readNext m.inst.pb.usbStatus = kReadBulkInPipeState := by
    unfold readNext; split_ifs <;> simp
  have hr : (readCompleted index id m).refcon = readNext m.inst.pb.usbStatus := rfl
  rw [NextOk, hr]
  rcases h with h | h <;> rw [h]
  · exact .inl rfl
  · exact .inr ⟨by decide, fun _ => by decide⟩

/-- Where the switch of the completion goes from a stage. -/
theorem completionStage_ok {index id : ℕ} {m : Machine} {st : UInt32} (hs : IsStage st)
    (hw : m.refcon &&& kStageMask = st)
    (hp : m.inst.bulkInPipe ≠ 0 → kAllocReadBufferState ≤ st) :
    NextOk (completionStage index id m) := by
  unfold completionStage
  rw [hw]
  rcases hs.cases with rfl | rfl | rfl | rfl | rfl
  · exact advance_ok _ (by decide) fun h => absurd (hp h) (by decide)
  · exact advance_ok _ (by decide) fun h => absurd (hp h) (by decide)
  · exact advance_ok _ (by decide) fun _ => by decide
  · exact advance_ok _ (by decide) fun _ => by decide
  · exact readCompleted_ok index id _

/-- Where a completion goes up to its last statement: the machine has stopped, or it is
    ready for the next stage. -/
theorem stageDone_stops_or_ready (index id : ℕ) {m : Machine} {st : UInt32} (hcalls : m.calls = [])
    (hs : IsStage st) (hw : m.refcon &&& kStageMask = st)
    (hp : m.inst.bulkInPipe ≠ 0 → kAllocReadBufferState ≤ st) :
    Stopped (stageDone index id m) ∨ Ready (stageDone index id m) := by
  have hcalls' : (stageDone index id m).calls = [] := (stageDone_quiet index id m).calls.trans hcalls
  have hok : NextOk (completionStage index id (m.log (.complete id))) := completionStage_ok hs hw hp
  have hword : (stageDone index id m).refcon =
      (completionStage index id (m.log (.complete id))).refcon &&& ~~~kCompletionPending := rfl
  rcases hok with hr | ⟨hs, hp⟩
  · exact .inl ⟨hcalls', by rw [hword, hr]; decide⟩
  · have hsame := hs.flags.2.2.1
    exact .inr ⟨hcalls', by rw [hword, hsame]; exact hs, fun h0 => by
      rw [hword, hsame]; exact hp h0⟩

/-- **A completion up to its last statement**: nothing is outstanding, and the
    machine has stopped or is ready for the next stage. -/
theorem stageDone_next (index : ℕ) {id : ℕ} {m : Machine} {st : UInt32} (h : Due m id st) :
    Clean (stageDone index id m) ∧ (Stopped (stageDone index id m) ∨ Ready (stageDone index id m)) :=
  ⟨h.clean.quiet (stageDone_quiet index id m),
    stageDone_stops_or_ready index id h.calls h.isStage h.word h.pipe⟩

/-- Where nested transactions take a machine: to a stop, or to a call that has
    the last token, at least `k` tokens on. -/
structure Moved (k : ℕ) (m m' : Machine) : Prop where
  clean : Clean m'
  state : ∃ j, j + m.inst.transDepth ≤ maxSyncDepth ∧
    m'.inst.callToken = m.inst.callToken + UInt32.ofNat j ∧
      (Stopped m' ∨ ∃ c, Busy m' c ∧ k ≤ j ∧ m'.inst.callInFlight = m'.inst.callToken)

section
variable {usl : ℕ → UslAnswer} {initiate : Machine → Machine}

/-- The completion of a machine that is not being removed. -/
theorem completionProc_moved (index : ℕ) {m : Machine} {id : ℕ} {st : UInt32} (h : Due m id st)
    (hr : m.inst.removing = false) (hd : m.inst.transDepth ≤ maxSyncDepth)
    (hinit : ∀ m' : Machine, m'.inst.transDepth = m.inst.transDepth → m'.inst.removing = false →
      Ready m' → Clean m' → Moved 1 m' (initiate m')) :
    Moved 1 m (completionProc initiate index id m) := by
  have hq := stageDone_quiet index id m
  have hdepth : (stageDone index id m).inst.transDepth = m.inst.transDepth := hq.depth
  have htoken : (stageDone index id m).inst.callToken = m.inst.callToken := hq.token
  have hrem : (stageDone index id m).inst.removing = false :=
    (congrArg Client.removing hq.client).trans hr
  obtain ⟨hclean, hstop | hready⟩ := stageDone_next index h
  · have hret : (stageDone index id m).refcon &&& kReturnFromDriver ≠ 0 := by
      rw [hstop.refcon]; decide
    simp only [completionProc, hret, false_and, if_false]
    exact ⟨hclean, 0, by omega, by rw [htoken]; simp, .inl hstop⟩
  · simp only [completionProc, hready.isStage.flags.2.2.2.2.1, hrem, and_self, if_true]
    obtain ⟨hc, j, hj, ht, hs⟩ := hinit _ hdepth hrem hready hclean
    exact ⟨hc, j, by omega, by rw [ht, htoken], hs⟩

/-- Every stage has a parameter block to issue. -/
theorem stagePB_spec {st : UInt32} (hs : IsStage st) (inst : Instance) :
    ∃ pb, stagePB st inst = some pb ∧ pb.usbRefcon = inst.pb.usbRefcon ||| kCompletionPending := by
  rcases hs.cases with rfl | rfl | rfl | rfl | rfl <;> exact ⟨_, rfl, rfl⟩

/-- Issuing a call on an idle parameter block. -/
theorem issue_busy {m : Machine} {st : UInt32} (hs : IsStage st) (hcalls : m.calls = [])
    (hw : m.refcon = st ||| kCompletionPending)
    (hp : m.inst.bulkInPipe ≠ 0 → kAllocReadBufferState ≤ st) (hc : Clean m) :
    Busy (m.issue st) ⟨m.nextId, st⟩ ∧ Clean (m.issue st) := by
  refine ⟨⟨by simp [Machine.issue, hcalls], hs, hw, hp⟩, fun id conn stage n hi => ?_, ?_, ?_⟩
  · rcases List.mem_append.1 hi with hi | hi
    · exact hc.issues id conn stage n hi
    · cases List.mem_singleton.1 hi
      rw [hcalls]; rfl
  all_goals
    have hcomp : completed (m.issue st).trace = completed m.trace := by
      simp [Machine.issue, Machine.log, completed_append, completed]
    have hn := hc.nodup
    have hf := hc.fresh
    rw [hcalls, List.map_nil, List.append_nil] at hn hf
    rw [hcomp]
    simp only [Machine.issue, hcalls, List.map_cons, List.map_nil]
  · refine List.nodup_append.2 ⟨hn, List.nodup_singleton _, ?_⟩
    intro a ha b hb
    rw [List.mem_singleton.1 hb]
    exact (hf a ha).ne
  · intro id hid
    rcases List.mem_append.1 hid with hid | hid
    · exact (hf id hid).trans (Nat.lt_succ_self _)
    · rw [List.mem_singleton.1 hid]; exact Nat.lt_succ_self _

/-- The outstanding call leaves the library. -/
theorem Busy.due {m : Machine} {c : Call} (h : Busy m c) (hc : Clean m) (r : UslResult) :
    Due (m.finish c.id r) c.id c.stage := by
  have hcalls : (m.finish c.id r).calls = [] := by
    simp [Machine.finish, h.calls]
  have hn := hc.nodup
  have hf := hc.fresh
  rw [h.calls, List.map_cons, List.map_nil] at hn hf
  have hcomp : completed ((m.finish c.id r).log (.complete c.id)).trace =
      completed m.trace ++ [c.id] := completed_append _ _
  refine ⟨hcalls, h.isStage, ?_, h.pipe, ?_, ?_, ?_⟩
  · show m.refcon &&& kStageMask = c.stage
    rw [h.refcon]; exact h.isStage.flags.2.1
  · intro id conn stage n hi
    rcases List.mem_append.1 hi with hi | hi
    · exact hc.issues id conn stage n hi
    · cases List.mem_singleton.1 hi
  · rw [hcomp]
    simpa [Machine.log, hcalls] using hn
  · have hnext : (m.finish c.id r).nextId = m.nextId := rfl
    rw [hcomp]
    simpa [Machine.log, hcalls, hnext] using hf

/-- The driver completes the call itself. -/
theorem Due.selfDriven {m : Machine} {id : ℕ} {st : UInt32} (h : Due m id st)
    (hw : m.refcon = st ||| kCompletionPending) :
    Due (m.clearPending.updPB fun pb => { pb with usbStatus := usbNoErr, usbData := [] }) id st where
  calls := h.calls
  isStage := h.isStage
  word := by
    show (m.refcon &&& ~~~kCompletionPending) &&& kStageMask = st
    rw [hw, h.isStage.flags.2.2.2.1, h.isStage.flags.1]
  pipe := h.pipe
  clean := ⟨h.clean.issues, h.clean.nodup, h.clean.fresh⟩

/-- The outstanding call is refused. -/
theorem Busy.refused {m : Machine} {c : Call} (h : Busy m c) (hc : Clean m) (w : UInt32) :
    ((m.refuse c.id).setRefcon w).calls = [] ∧ Clean ((m.refuse c.id).setRefcon w) := by
  have hcalls : ((m.refuse c.id).setRefcon w).calls = [] := by
    simp [Machine.refuse, Machine.setRefcon, Machine.updPB, Machine.upd, h.calls]
  refine ⟨hcalls, hc.issues, ?_, ?_⟩
  · rw [hcalls, List.map_nil, List.append_nil]
    exact hc.nodup.of_append_left
  · intro id hid
    rw [hcalls, List.map_nil, List.append_nil] at hid
    exact hc.fresh id (List.mem_append_left _ hid)

/-- A nested call has another token. -/
theorem token_ne {t : UInt32} {j : ℕ} (h1 : 1 ≤ j) (hj : j ≤ maxSyncDepth) :
    t + UInt32.ofNat j ≠ t := by
  intro he
  have h0 : UInt32.ofNat j = 0 := by simpa using he
  have h0' := congrArg UInt32.toNat h0
  rw [UInt32.toNat_ofNat', Nat.mod_eq_of_lt (hj.trans_lt (by decide))] at h0'
  exact absurd h0' (by rw [UInt32.toNat_zero]; omega)

/-- After a call that completed while it was issued: the machine has stopped, or a nested
    call has another token. -/
theorem Moved.returned {m m' : Machine} {token : UInt32} (h : Moved 1 m m')
    (ht : m.inst.callToken = token) : Stopped m' ∨ m'.inst.callInFlight ≠ token := by
  obtain ⟨j, hj, hjt, hstop | ⟨c, -, h1, hin⟩⟩ := h.state
  · exact .inl hstop
  · refine .inr ?_
    rw [hin, hjt, ht]
    exact token_ne h1 (by omega)

/-- What follows a call that completed while it was issued changes nothing. -/
theorem callReturned_stays {m m' : Machine} {token : UInt32} (h : Moved 1 m m')
    (ht : m.inst.callToken = token) (id : ℕ) (err : ℤ) :
    callReturned index initiate id token m' err = m' ∨
      Stopped m' ∧ callReturned index initiate id token m' err = m'.setRefcon kReturnFromDriver := by
  unfold callReturned
  split_ifs with hp hf hself hok
  · exact .inl rfl
  · exact .inl rfl
  · have hstop := (h.returned ht).resolve_right hf
    rw [hstop.refcon] at hself
    exact absurd hself.2 (by decide)
  · exact .inl rfl
  · exact .inr ⟨(h.returned ht).resolve_right hf, rfl⟩

theorem callReturned_moved {m m' : Machine} {token : UInt32} (h : Moved 1 m m')
    (ht : m.inst.callToken = token) (id : ℕ) (err : ℤ) :
    Moved 1 m (callReturned index initiate id token m' err) := by
  obtain heq | ⟨hstop, heq⟩ : callReturned index initiate id token m' err = m' ∨ Stopped m' ∧
      callReturned index initiate id token m' err = m'.setRefcon kReturnFromDriver :=
    callReturned_stays h ht id err
  · rwa [heq]
  · obtain ⟨j, hj, hjt, -⟩ := h.state
    rw [heq]
    exact ⟨h.clean.quiet (.setRefcon _ _), j, hj, hjt, .inl ⟨hstop.calls, rfl⟩⟩

theorem Moved.weaken {m m' : Machine} (h : Moved 1 m m') : Moved 0 m m' := by
  obtain ⟨hc, j, hj, ht, hs⟩ := h
  exact ⟨hc, j, hj, ht, hs.imp_right fun ⟨c, hb, _, hin⟩ => ⟨c, hb, Nat.zero_le j, hin⟩⟩

/-- **Every answer of the library** to a call that was just issued. -/
theorem issued_moved {m : Machine} {id : ℕ} {st : UInt32} (hb : Busy m ⟨id, st⟩) (hc : Clean m)
    (hin : m.inst.callInFlight = m.inst.callToken) (hr : m.inst.removing = false)
    (hd : m.inst.transDepth ≤ maxSyncDepth)
    (hinit : ∀ m' : Machine, m'.inst.transDepth = m.inst.transDepth → m'.inst.removing = false →
      Ready m' → Clean m' → Moved 1 m' (initiate m')) :
    Moved 0 m (callReturned index initiate id m.inst.callToken (callUsl usl index initiate id m).1
      (callUsl usl index initiate id m).2) := by
  unfold callUsl
  rcases usl id with _ | ⟨r, ret⟩ | r | e
  · -- the call stays outstanding
    refine ⟨hc, 0, by omega, ?_, .inr ⟨_, hb, le_rfl, hin⟩⟩
    show m.inst.callToken = _
    simp
  · -- it completes before it returns
    obtain ⟨hcl, hst⟩ := completionProc_moved index (hb.due hc r) hr hd hinit
    exact (callReturned_moved (m := m) ⟨hcl, hst⟩ rfl id ret).weaken
  · -- the driver completes it itself
    have hret : (m.finish id r).refcon &&& kReturnFromDriver = 0 := by
      show m.refcon &&& _ = 0
      rw [hb.refcon]; exact hb.isStage.flags.2.2.2.2.2.1
    have hin' : (m.finish id r).inst.callInFlight = m.inst.callToken := hin
    obtain ⟨hcl, hst⟩ :=
      completionProc_moved index ((hb.due hc r).selfDriven hb.refcon) hr hd hinit
    simp only [callReturned, hin', hret, ne_eq, not_true_eq_false, if_false, and_self, if_true]
    exact Moved.weaken ⟨hcl, hst⟩
  · -- it is refused
    have hin' : (m.refuse id).inst.callInFlight = m.inst.callToken := hin
    obtain ⟨h1, h2⟩ := hb.refused hc kReturnFromDriver
    simp only [callReturned, e.ne_pending, e.ne_noErr, hin', ne_eq, not_true_eq_false, if_false,
      false_and]
    refine ⟨h2, 0, by omega, ?_, .inl ⟨h1, rfl⟩⟩
    show m.inst.callToken = _
    simp

/-- Leaving a transaction that took one token. -/
theorem Moved.leave {k : ℕ} {m m₁ m' : Machine} (h : Moved k m₁ m')
    (ht : m₁.inst.callToken = m.inst.callToken + 1)
    (hd : m₁.inst.transDepth = m.inst.transDepth + 1) : Moved 1 m m'.leave := by
  obtain ⟨hc, j, hj, hjt, hs⟩ := h
  refine ⟨⟨hc.issues, hc.nodup, hc.fresh⟩, j + 1, by omega, ?_, ?_⟩
  · show m'.inst.callToken = _
    rw [hjt, ht, Nat.add_comm j 1, UInt32.ofNat_add, ← add_assoc]; rfl
  · rcases hs with hstop | ⟨c, hb, -, hin⟩
    · exact .inl ⟨hstop.calls, hstop.refcon⟩
    · exact .inr ⟨c, ⟨hb.calls, hb.isStage, hb.refcon, hb.pipe⟩, Nat.le_add_left 1 j, hin⟩

/-- **A transaction on an idle parameter block** ends with one outstanding call
    and the pending bit, or with neither. -/
theorem initiateTransaction_moved {fuel : ℕ} {m : Machine}
    (hfuel : maxSyncDepth < fuel + m.inst.transDepth) (hd : m.inst.transDepth ≤ maxSyncDepth)
    (hr : m.inst.removing = false) (h : Ready m) (hc : Clean m) :
    Moved 1 m (initiateTransaction usl index fuel m) := by
  induction fuel generalizing m with
  | zero => omega
  | succ fuel ih =>
    unfold initiateTransaction
    simp only [hr, Bool.false_eq_true, if_false]
    split_ifs with hdeep
    · exact ⟨⟨hc.issues, hc.nodup, hc.fresh⟩, 0, by omega, by simp [Machine.setRefcon,
        Machine.enter, Machine.leave, Machine.updPB, Machine.upd], .inl ⟨h.calls, rfl⟩⟩
    have hmask : m.enter.refcon &&& kStageMask = m.refcon := h.isStage.flags.1
    obtain ⟨pb, hpb, hw⟩ := stagePB_spec h.isStage m.enter.takeToken.inst
    simp only [hmask, hpb]
    obtain ⟨hbusy, hclean⟩ := issue_busy (m := m.enter.takeToken.updPB fun _ => pb) h.isStage
      h.calls hw h.pipe ⟨hc.issues, hc.nodup, hc.fresh⟩
    have hdeep' : m.inst.transDepth + 1 ≤ maxSyncDepth := Nat.le_of_not_lt hdeep
    refine Moved.leave (issued_moved hbusy hclean rfl hr hdeep' ?_)
      rfl rfl
    intro m' hd' hr' hready hcl
    have hd'' : m'.inst.transDepth = m.inst.transDepth + 1 := hd'
    exact ih (by omega) (by omega) hr' hready hcl

/-! ## Between external events -/

/-- The machine between two external events. -/
structure Settled (m : Machine) : Prop where
  clean : Clean m
  depth : m.inst.transDepth = 0
  state : (∃ c, Busy m c) ∨ Stopped m ∨ Ready m ∧ m.inst.removing = true

theorem Moved.settled {k : ℕ} {m m' : Machine} (h : Moved k m m') (hk : Kept m m')
    (hd : m.inst.transDepth = 0) : Settled m' := by
  obtain ⟨hc, j, -, -, hs⟩ := h
  exact ⟨hc, hk.depth.trans hd, hs.symm.imp (fun ⟨c, hb, _⟩ => ⟨c, hb⟩) Or.inl⟩

/-- **The pending bit** is set exactly while one call is outstanding. -/
theorem Settled.pending_iff {m : Machine} (h : Settled m) :
    (m.refcon &&& kCompletionPending ≠ 0 ↔ m.calls.length = 1) ∧ m.calls.length ≤ 1 := by
  rcases h.state with ⟨c, hb⟩ | hs | ⟨hr, -⟩
  · rw [hb.refcon, hb.calls]
    exact ⟨iff_of_true hb.isStage.flags.2.2.2.2.2.2.2 rfl, le_rfl⟩
  · rw [hs.refcon, hs.calls]
    exact ⟨iff_of_false (by decide) (by decide), Nat.zero_le 1⟩
  · rw [hr.isStage.flags.2.2.2.2.2.2.1, hr.calls]
    exact ⟨iff_of_false (by decide) (by decide), Nat.zero_le 1⟩

/-- A fresh instance settles. -/
theorem startTransaction_settled (ref conn : ℕ) (inst : Instance) {m : Machine}
    (hm : m.inst = initInstance ref conn inst) (hcalls : m.calls = []) (hc : Clean m) :
    Settled (startTransaction usl index m) := by
  have hready : Ready m := by
    refine ⟨hcalls, ?_, ?_⟩ <;> simp only [Machine.refcon, hm, initInstance]
    · decide
    · exact fun h => absurd rfl h
  have hd : m.inst.transDepth = 0 := by rw [hm]; rfl
  have hr : m.inst.removing = false := by rw [hm]; rfl
  exact (initiateTransaction_moved (by rw [hd]; decide) (by rw [hd]; decide) hr hready hc).settled
    (initiateTransaction_kept _ _) hd

/-- The outstanding call is the one the machine waits for. -/
theorem Settled.busy {m : Machine} (h : Settled m) {id : ℕ} (hid : id ∈ m.calls.map Call.id) :
    ∃ c, Busy m c ∧ id = c.id := by
  rcases h.state with ⟨c, hb⟩ | hs | ⟨hr, -⟩
  · rw [hb.calls] at hid
    exact ⟨c, hb, List.mem_singleton.1 hid⟩
  · rw [hs.calls] at hid; cases hid
  · rw [hr.calls] at hid; cases hid

/-- **A completion** of the outstanding call settles, also while removing. -/
theorem completeCall_settled {m : Machine} (h : Settled m) {id : ℕ} (hid : id ∈ m.calls.map Call.id)
    (r : UslResult) : Settled (completeCall usl index id r m) := by
  obtain ⟨c, hb, rfl⟩ := h.busy hid
  have hdue := hb.due h.clean r
  have hkept : Kept (m.finish c.id r) (completeCall usl index c.id r m) :=
    completionProc_kept (initiateTransaction_kept _) _ _
  cases hr : m.inst.removing with
  | false =>
    have hd : (m.finish c.id r).inst.transDepth = 0 := h.depth
    refine (completionProc_moved index hdue hr (by rw [hd]; decide) ?_).settled
      hkept hd
    intro m' hd' hr' hready hcl
    exact initiateTransaction_moved (by rw [hd', hd]; decide) (by rw [hd', hd]; decide) hr' hready hcl
  | true =>
    have hq := stageDone_quiet index c.id (m.finish c.id r)
    have hrem : (stageDone index c.id (m.finish c.id r)).inst.removing = true :=
      (congrArg Client.removing hq.client).trans hr
    have heq : completeCall usl index c.id r m = stageDone index c.id (m.finish c.id r) := by
      simp only [completeCall, completionProc, hrem, Bool.true_eq_false, and_false, if_false]
    obtain ⟨hcl, hs⟩ := stageDone_next index hdue
    rw [heq]
    exact ⟨hcl, hq.depth.trans h.depth, .inr (hs.imp_right fun hready => ⟨hready, hrem⟩)⟩

end

/-! ## Runs of one instance -/

/-- What happens to an instance from outside. -/
inductive InstanceEvent where
  /-- the library completes an outstanding call -/
  | completion (id : ℕ) (r : UslResult)
  /-- a removal notification whose pipe abort, if there is one, is accepted -/
  | removal

/-- What `kNotifyDriverBeingRemoved` stores in an instance. -/
def Instance.markRemoving (inst : Instance) : Instance :=
  { inst with removing := true, eventCallback := none, eventRefcon := 0 }

/-- One event. -/
def instanceStep (usl : ℕ → UslAnswer) (index : ℕ) (m : Machine) :
    InstanceEvent → Option Machine
  | .completion id r =>
    if id ∈ m.calls.map Call.id then some (completeCall usl index id r m) else none
  | .removal => some (m.upd Instance.markRemoving)

theorem instanceStep_settled {usl : ℕ → UslAnswer} {index : ℕ} {m m' : Machine}
    {e : InstanceEvent} (h : Settled m) (hs : instanceStep usl index m e = some m') :
    Settled m' := by
  cases e with
  | completion id r =>
    simp only [instanceStep] at hs
    split_ifs at hs with hid
    exact Option.some.inj hs ▸ completeCall_settled h hid r
  | removal =>
    obtain rfl := Option.some.inj hs
    refine ⟨⟨h.clean.issues, h.clean.nodup, h.clean.fresh⟩, h.depth, ?_⟩
    rcases h.state with ⟨c, hb⟩ | hstop | ⟨hr, -⟩
    · exact .inl ⟨c, hb.calls, hb.isStage, hb.refcon, hb.pipe⟩
    · exact .inr (.inl ⟨hstop.calls, hstop.refcon⟩)
    · exact .inr (.inr ⟨⟨hr.calls, hr.isStage, hr.pipe⟩, rfl⟩)

/-- A fresh instance in a slot, its first transaction made. -/
def freshMachine (usl : ℕ → UslAnswer) (index ref conn : ℕ) (slot : Instance) : Machine :=
  startTransaction usl index ⟨initInstance ref conn slot, [], 0, []⟩

/-- **One call per parameter block.**  Whatever the library answers, and wherever
    completions and removals fall: the pending bit is set exactly while one call
    is outstanding, no call was issued while another was outstanding, and no
    call's completion transition was executed twice. -/
theorem one_call_per_block {usl : ℕ → UslAnswer} {index ref conn : ℕ} {slot : Instance}
    {m : Machine}
    (h : Reach (instanceStep usl index) (fun _ _ => True) (freshMachine usl index ref conn slot) m) :
    (m.refcon &&& kCompletionPending ≠ 0 ↔ m.calls.length = 1) ∧ m.calls.length ≤ 1 ∧
      (∀ id conn stage n, .issue id conn stage n ∈ m.trace → n = 0) ∧ (completed m.trace).Nodup := by
  have h₀ : Settled (freshMachine usl index ref conn slot) :=
    startTransaction_settled ref conn slot rfl rfl ⟨by simp, by simp [completed], by simp [completed]⟩
  have hm := h.inv h₀ fun m e m' hI _ hs => instanceStep_settled hI hs
  exact ⟨hm.pending_iff.1, hm.pending_iff.2, hm.clean.issues, hm.clean.nodup.of_append_left⟩

/-- A successful result. -/
def okResult (reference : ℕ) (data : List UInt8) : UslResult :=
  ⟨usbNoErr, 0x1000, reference, 64, data, fun _ => 0⟩

/-- A library that completes the first calls in different ways and leaves the
    others outstanding. -/
def mixedUsl : ℕ → UslAnswer
  | 0 => .completed (okResult 0 []) usbNoErr
  | 1 => .noErr (okResult 0 [])
  | 2 => .completed (okResult 7 []) usbPending
  | _ => .pending

/-- Two nested completions and one the driver makes itself, then a read, a
    removal and the aborted read. -/
theorem one_call_per_block_mixed : ∃ m,
    runEvents (instanceStep mixedUsl 0) (freshMachine mixedUsl 0 1 0 default)
      [.completion 3 (okResult 0 []), .completion 4 (okResult 0 [9, 0x90, 0x30, 0x50]), .removal,
        .completion 5 ⟨usbAbortedError, 0, 0, 0, [], fun _ => 0⟩] = some m ∧
      completed m.trace = [0, 1, 2, 3, 4, 5] ∧
      (m.refcon &&& kCompletionPending ≠ 0 ↔ m.calls.length = 1) ∧ m.calls.length ≤ 1 ∧
        (∀ id conn stage n, .issue id conn stage n ∈ m.trace → n = 0) ∧ (completed m.trace).Nodup := by
  obtain ⟨m, hm⟩ : ∃ m, runEvents (instanceStep mixedUsl 0) (freshMachine mixedUsl 0 1 0 default)
      [.completion 3 (okResult 0 []), .completion 4 (okResult 0 [9, 0x90, 0x30, 0x50]), .removal,
        .completion 5 ⟨usbAbortedError, 0, 0, 0, [], fun _ => 0⟩] = some m := ⟨_, rfl⟩
  refine ⟨m, hm, ?_, one_call_per_block (.of_run runOk_true hm)⟩
  have hm' := congrArg (Option.map fun m => completed m.trace) hm
  exact Option.some.inj (hm'.symm.trans (by decide +kernel))

end Usbmidi9
