/-
  USBMIDI9 — where the push hook of the shim is registered (`oms/oms_driver.c`).

  `HookState` is the abstract model: the class driver that is bound, and for every
  dispatch table the interfaces that it has and those that hold the hook.  A table that
  is bound anew is given the hook on all of its interfaces; a table that is dropped
  keeps it.

  `omsHandleMessage_hooks` and `omsUsbNotify_hooks` are the simulation: a message or a
  notification acts on this state as the abstract one does, whatever else it does.
-/
import Usbmidi9.Oms.Moves

namespace Usbmidi9

/-! ## The abstract model -/

/-- A dispatch table with its interfaces, those below `count`, and the ones that hold
    `oms_rx_event`. -/
structure HookTable where
  version : ℕ
  hasEventCallback : Bool
  count : ℕ
  hooks : ℕ → Bool

namespace HookTable

/-- The shim can bind the table. -/
def Bindable (d : HookTable) : Prop :=
  omsDispatchMinVersion ≤ d.version ∧ d.hasEventCallback = true

instance (d : HookTable) : Decidable d.Bindable := inferInstanceAs (Decidable (_ ∧ _))

/-- Some interface holds the hook. -/
def Holds (d : HookTable) : Prop := ∃ i < d.count, d.hooks i = true

instance (d : HookTable) : Decidable d.Holds := inferInstanceAs (Decidable (∃ i < d.count, _))

/-- `setEventCallback`, which fails for an interface that is not there. -/
def setHook (hook : Bool) (i : ℕ) (d : HookTable) : HookTable :=
  { d with hooks := if i < d.count then Function.update d.hooks i hook else d.hooks }

/-- `setEventCallback` for the interfaces below `n`. -/
def setHooks (hook : Bool) (n : ℕ) (d : HookTable) : HookTable :=
  { d with hooks := fun i => if i < n ∧ i < d.count then hook else d.hooks i }

theorem setHooks_zero (hook : Bool) (d : HookTable) : d.setHooks hook 0 = d := by
  simp [setHooks]

theorem setHooks_succ (hook : Bool) (n : ℕ) (d : HookTable) :
    (d.setHooks hook n).setHook hook n = d.setHooks hook (n + 1) := by
  refine congrArg (HookTable.mk _ _ _) (funext fun i => ?_)
  by_cases hi : i = n
  · subst hi
    by_cases hc : i < d.count <;> simp [setHooks, hc]
  · have hlt : i < n + 1 ↔ i < n := by omega
    by_cases hn : n < d.count <;> simp [setHooks, hn, hi, hlt]

end HookTable

/-- The table that is bound, with its device, and all tables. -/
structure HookState where
  bound : Option (ℕ × ℤ)
  tables : ℕ → HookTable

namespace HookState
variable (h : HookState)

/-- Update a table. -/
def update (t : ℕ) (f : HookTable → HookTable) : HookState :=
  { h with tables := Function.update h.tables t (f (h.tables t)) }

/-- Set or clear the hook on the interfaces of a table. -/
def setHooks (t : ℕ) (hook : Bool) : HookState := h.update t (·.setHooks hook omsMaxInterfaces)

/-- The table of a `FindSymbol` answer, if it can be bound. -/
def bindable (sym : SymbolAnswer) : Option ℕ :=
  if sym.err = omsNoErr then sym.table.filter fun t => (h.tables t).Bindable else none

/-- What is bound after a notification. -/
def notified (b : Option (ℕ × ℤ)) : DeviceNotification → Option (ℕ × ℤ)
  | .add deviceRef conn => b <|> (conn.bind h.bindable).map (·, deviceRef)
  | .remove deviceRef => b.filter fun p => p.2 ≠ deviceRef
  | .other => b

/-- What is bound after a walk over the devices. -/
def located (b : Option (ℕ × ℤ)) (devices : List (ℤ × SymbolAnswer)) : Option (ℕ × ℤ) :=
  b <|> devices.findSome? fun d => (h.bindable d.2).map (·, d.1)

/-- `b` is bound: if nothing was, its table is given the hook. -/
def bind (b : Option (ℕ × ℤ)) : HookState :=
  match h.bound, b with
  | none, some (t, _) => { h.setHooks t true with bound := b }
  | _, _ => { h with bound := b }

/-- A notification. -/
def notify (n : DeviceNotification) : HookState := h.bind (h.notified h.bound n)

/-- A lookup. -/
def locate (devices : List (ℤ × SymbolAnswer)) : HookState := h.bind (h.located h.bound devices)

/-- The bound table is given the hook again. -/
def register : HookState :=
  match h.bound with
  | some (t, _) => h.setHooks t true
  | none => h

/-- The bound table is cleared of the hook, if it has `setEventCallback`. -/
def unregister : HookState :=
  match h.bound with
  | some (t, _) => if (h.tables t).hasEventCallback then h.setHooks t false else h
  | none => h

/-- The messages of OMS. -/
def handle : OmsMessage → HookState
  | .init a => (a.installed.foldl notify { h with bound := none }).locate a.devices
  | .dispose => { h.unregister with bound := none }
  | .addDevices hasProc devices => if hasProc then (h.locate devices).register else h
  | .startMIDI2 devices => h.locate devices
  | _ => h

theorem tables_update (t : ℕ) (f : HookTable → HookTable) (t' : ℕ) :
    (h.update t f).tables t' = if t' = t then f (h.tables t') else h.tables t' := by
  by_cases ht : t' = t
  · subst ht
    exact (Function.update_self ..).trans (if_pos rfl).symm
  · exact (Function.update_of_ne ht ..).trans (if_neg ht).symm

theorem update_update (t : ℕ) (f f' : HookTable → HookTable) :
    (h.update t f).update t f' = h.update t (f' ∘ f) := by
  refine congrArg (HookState.mk _) (funext fun t' => ?_)
  show ((h.update t f).update t f').tables t' = (h.update t (f' ∘ f)).tables t'
  simp only [tables_update]
  split_ifs <;> rfl

theorem bind_bound (b : Option (ℕ × ℤ)) : (h.bind b).bound = b := by
  unfold bind
  split <;> rfl

theorem bind_none : h.bind none = { h with bound := none } := by
  rcases h with ⟨_ | b, tables⟩ <;> rfl

/-- Nothing changes if the same table stays bound. -/
theorem bind_self : h.bind h.bound = h := by
  rcases h with ⟨_ | b, tables⟩ <;> rfl

end HookState

/-! ## The view of the shim -/

/-- A class driver without its rings. -/
def ClassDriver.hookTable (d : ClassDriver) : HookTable :=
  ⟨d.version, d.hasEventCallback, d.count, d.hooks⟩

/-- What the abstract model sees of the shim. -/
def Oms.hookState (s : Oms) : HookState :=
  ⟨s.g.table.map (·, s.g.deviceRef), fun t => (s.drivers t).hookTable⟩

section
variable {s s' : Oms}

theorem Oms.hookState_upd (s : Oms) {f : OmsGlobals → OmsGlobals} (ht : (f s.g).table = s.g.table)
    (hd : (f s.g).deviceRef = s.g.deviceRef) : (s.upd f).hookState = s.hookState := by
  simp only [hookState, upd, ht, hd]

theorem Oms.hookState_log (s : Oms) (es : List OmsEntry) :
    (s.log es).hookState = s.hookState := rfl

theorem Oms.hookTable_setDriver (s : Oms) (t : ℕ) (d : ClassDriver) (t' : ℕ) :
    ((s.setDriver t d).drivers t').hookTable =
      if t' = t then d.hookTable else (s.drivers t').hookTable := by
  have hdriver : (s.setDriver t d).drivers t' = if t' = t then d else s.drivers t' :=
    Function.update_apply ..
  rw [hdriver]
  split_ifs <;> rfl

/-- A driver without its rings stays the same. -/
theorem Oms.hookState_setDriver (s : Oms) {t : ℕ} {d : ClassDriver}
    (h : d.hookTable = (s.drivers t).hookTable) : (s.setDriver t d).hookState = s.hookState := by
  refine congrArg (HookState.mk _) (funext fun t' => ?_)
  rw [hookTable_setDriver]
  split_ifs with ht
  · rw [ht, h]
  · rfl

theorem Oms.hookState_setRing (s : Oms) (t i : ℕ) (r : Ring RingByte) :
    (s.setRing t i r).hookState = s.hookState := s.hookState_setDriver rfl

theorem omsRxDrain_hooks (i : ℕ) (deliver : Bool) (s : Oms) :
    (omsRxDrain i deliver s).hookState = s.hookState := by
  by_cases h : ∃ t, s.Drains i t
  · obtain ⟨t, ht⟩ := h
    obtain ⟨fs, s', r, heq, hd⟩ := omsRxDrain_drained ht deliver
    obtain ⟨_, _, _, _, hg⟩ := hd.globals
    rw [heq, Oms.hookState_setRing, Oms.hookState, hg, hd.drivers]
    rfl
  · rw [omsRxDrain_skip (not_exists.1 h)]

theorem omsRxDrainAll_hooks (deliver : Bool) (s : Oms) :
    (omsRxDrainAll deliver s).hookState = s.hookState :=
  omsRxDrainAll_inv (I := fun s' => s'.hookState = s.hookState)
    (fun s' i h => (omsRxDrain_hooks i deliver s').trans h) rfl

/-! ### Registration -/

/-- A driver is stored. -/
theorem Oms.hookState_update (s : Oms) {t : ℕ} {d : ClassDriver} {f : HookTable → HookTable}
    (h : d.hookTable = f (s.drivers t).hookTable) :
    (s.setDriver t d).hookState = s.hookState.update t f := by
  refine congrArg (HookState.mk _) (funext fun t' => ?_)
  rw [hookTable_setDriver, h]
  show _ = (s.hookState.update t f).tables t'
  rw [HookState.tables_update]
  split_ifs with ht
  · rw [ht]
    rfl
  · rfl

/-- A loop that sets or clears the hook on the interfaces below `n`. -/
theorem hookState_foldl_setHook {f : Oms → ℕ → Oms} {t : ℕ} {hook : Bool}
    (hf : ∀ s i, (f s i).hookState = (s.setHook t i hook).hookState) (s : Oms) (n : ℕ) :
    ((List.range n).foldl f s).hookState = s.hookState.update t (·.setHooks hook n) := by
  induction n with
  | zero =>
    have hnone : s.hookState.update t (·.setHooks hook 0) = s.hookState := by
      simp only [HookTable.setHooks_zero, HookState.update, Function.update_eq_self]
    rw [hnone]
    rfl
  | succ n ih =>
    have hset : ∀ s : Oms, (s.setHook t n hook).hookState =
        s.hookState.update t (·.setHook hook n) := fun s => s.hookState_update rfl
    rw [List.range_succ, List.foldl_append, List.foldl_cons, List.foldl_nil, hf, hset, ih,
      HookState.update_update]
    exact congrArg _ (funext fun d => HookTable.setHooks_succ hook n d)

theorem omsRegisterCallbacks_hooks (s : Oms) (t : ℕ) :
    (omsRegisterCallbacks s t).hookState = s.hookState.setHooks t true := by
  have hloop : ∀ (s : Oms) (i : ℕ), ((s.setHook t i true).upd fun g =>
      { g with callbackRegistered := g.callbackRegistered || i < (s.drivers t).count }).hookState =
        (s.setHook t i true).hookState := fun s i => Oms.hookState_upd _ rfl rfl
  unfold omsRegisterCallbacks
  rw [hookState_foldl_setHook hloop]
  rfl

/-! ### Lookups -/

theorem Oms.bindable_hookState (s : Oms) (sym : SymbolAnswer) :
    s.hookState.bindable sym = sym.bindable s.drivers := rfl

/-- A class driver is bound where none was. -/
theorem omsBindDispatch_hooks (ht : s.g.table = none) (deviceRef : ℤ) (sym : SymbolAnswer) :
    (omsBindDispatch s deviceRef sym).1.hookState =
      s.hookState.bind ((s.hookState.bindable sym).map (·, deviceRef)) := by
  have hnone : s.hookState.bound = none := by
    rw [Oms.hookState, ht]
    rfl
  rw [omsBindDispatch_eq, Oms.bindable_hookState]
  unfold HookState.bind
  rw [hnone]
  rcases sym.bindable s.drivers with _ | t
  · show s.locateFailed.hookState = ⟨none, s.hookState.tables⟩
    rw [Oms.locateFailed, Oms.hookState_upd s rfl rfl, ← hnone]
  · show (omsRxDrainAll _ (s.attached t deviceRef)).hookState = _
    rw [omsRxDrainAll_hooks, Oms.attached, omsRegisterCallbacks_hooks]
    rfl

theorem Oms.bound_eq_none (s : Oms) : s.hookState.bound = none ↔ s.g.table = none :=
  Option.map_eq_none_iff

theorem locateFailed_hooks (s : Oms) : s.locateFailed.hookState = s.hookState :=
  Oms.hookState_upd s rfl rfl

/-- The walk of a lookup. -/
theorem omsWalk_hooks (ht : s.g.table = none) (devices : List (ℤ × SymbolAnswer)) :
    (omsWalk s devices).1.hookState = s.hookState.locate devices := by
  induction devices generalizing s with
  | nil =>
    have hnone : s.hookState.bound = none := s.bound_eq_none.2 ht
    show s.locateFailed.hookState = s.hookState.bind (s.hookState.bound <|> none)
    rw [locateFailed_hooks, hnone, show (none <|> none : Option (ℕ × ℤ)) = none from rfl, ← hnone,
      HookState.bind_self]
  | cons d devices ih =>
    have hnone : s.hookState.bound = none := s.bound_eq_none.2 ht
    have hbind := omsBindDispatch_found s d.1 d.2
    have hhooks := omsBindDispatch_hooks ht d.1 d.2
    unfold omsWalk HookState.locate HookState.located
    simp only
    rw [hnone, List.findSome?_cons, Oms.bindable_hookState]
    rw [Oms.bindable_hookState] at hhooks
    rcases hb : d.2.bindable s.drivers with _ | t
    · rw [hb] at hbind
      obtain ⟨heq, hne⟩ := hbind
      have hrest := ih (s := s.locateFailed) ht
      rw [locateFailed_hooks, HookState.locate, HookState.located, hnone] at hrest
      rw [if_neg hne, heq]
      exact hrest
    · rw [hb] at hbind hhooks
      rw [if_pos hbind.2.1, hhooks]
      rfl

/-- **A lookup.** -/
theorem omsLocateDispatch_hooks (s : Oms) (devices : List (ℤ × SymbolAnswer)) :
    (omsLocateDispatch s devices).1.hookState = s.hookState.locate devices := by
  unfold omsLocateDispatch
  split_ifs with ht
  · obtain ⟨b, hb⟩ := Option.ne_none_iff_exists'.1 (mt s.bound_eq_none.1 ht)
    have hsame : s.hookState.located s.hookState.bound devices = s.hookState.bound := by
      rw [hb]
      rfl
    rw [HookState.locate, hsame, HookState.bind_self]
  · exact omsWalk_hooks (not_not.1 ht) devices

/-- **A notification.** -/
theorem omsUsbNotify_hooks (s : Oms) (n : DeviceNotification) :
    (omsUsbNotify s n).hookState = s.hookState.notify n := by
  cases n with
  | add deviceRef conn =>
    show (omsAttachDevice s deviceRef conn).1.hookState = _
    unfold omsAttachDevice
    split_ifs with ht
    · obtain ⟨b, hb⟩ := Option.ne_none_iff_exists'.1 (mt s.bound_eq_none.1 ht)
      have hsame : s.hookState.notified s.hookState.bound (.add deviceRef conn) =
          s.hookState.bound := by
        rw [hb]
        rfl
      rw [HookState.notify, hsame, HookState.bind_self]
    · have hnone : s.hookState.bound = none := s.bound_eq_none.2 (not_not.1 ht)
      rw [HookState.notify, HookState.notified, hnone]
      rcases conn with _ | sym
      · exact (hnone ▸ s.hookState.bind_self).symm
      · exact omsBindDispatch_hooks (not_not.1 ht) deviceRef sym
  | remove deviceRef =>
    simp only [omsUsbNotify]
    rcases ht : s.g.table with _ | t
    · have hnone : s.hookState.bound = none := s.bound_eq_none.2 ht
      have hsame : s.hookState.notified s.hookState.bound (.remove deviceRef) =
          s.hookState.bound := by
        rw [hnone]
        rfl
      rw [if_neg fun h => h.1 rfl, HookState.notify, hsame, HookState.bind_self]
    · have hsome : s.hookState.bound = some (t, s.g.deviceRef) := by
        rw [Oms.hookState, ht]
        rfl
      by_cases hd : deviceRef = s.g.deviceRef
      · have hdrop : s.hookState.notified s.hookState.bound (.remove deviceRef) = none := by
          simp [hsome, HookState.notified, hd]
        rw [if_pos ⟨Option.some_ne_none t, hd⟩, HookState.notify, hdrop, HookState.bind_none]
        rfl
      · have hsame : s.hookState.notified s.hookState.bound (.remove deviceRef) =
            s.hookState.bound := by
          simp [hsome, HookState.notified, Ne.symm hd]
        rw [if_neg fun h => hd h.2, HookState.notify, hsame, HookState.bind_self]
  | other => exact s.hookState.bind_self.symm

theorem omsNotifications_hooks (s : Oms) (l : List DeviceNotification) :
    (l.foldl omsUsbNotify s).hookState = l.foldl HookState.notify s.hookState := by
  induction l generalizing s with
  | nil => rfl
  | cons n l ih =>
    rw [List.foldl_cons, List.foldl_cons, ih, omsUsbNotify_hooks]

/-! ### Messages -/

theorem omsRelease_hooks (s : Oms) : (omsRelease s).hookState = s.hookState := by
  unfold omsRelease
  simp only
  rw [Oms.hookState_log, Oms.hookState_upd _ rfl rfl]
  split_ifs <;> rfl

theorem installed_hooks (s : Oms) (token : Option ℕ) :
    (s.installed token).hookState = s.hookState := by
  cases token <;> rfl

theorem omsInit_hooks (s : Oms) (a : InitAnswers) :
    (omsInit s a).hookState = s.hookState.handle (.init a) := by
  have hclear : (omsNewSendUpp (omsRelease s).cleared a.upp).hookState =
      { s.hookState with bound := none } :=
    congrArg (HookState.mk none) (congrArg HookState.tables (omsRelease_hooks s))
  unfold omsInit
  simp only
  rw [Oms.hookState_upd _ rfl rfl, omsLocateDispatch_hooks, installed_hooks, omsNotifications_hooks,
    hclear]
  rfl

theorem omsDispose_hooks (s : Oms) :
    (omsDispose s).hookState = s.hookState.handle .dispose := by
  have hcleared : ∀ s' : Oms, s'.hookState = s.hookState.unregister →
      (omsRelease s').cleared.hookState = s.hookState.handle .dispose := by
    intro s' hs'
    refine congrArg (HookState.mk none) ?_
    show (omsRelease s').hookState.tables = _
    rw [omsRelease_hooks, hs']
  refine hcleared _ ?_
  rcases ht : s.g.table with _ | t
  · have hnone : s.hookState.bound = none := s.bound_eq_none.2 ht
    rw [HookState.unregister, hnone]
  · have hsome : s.hookState.bound = some (t, s.g.deviceRef) := by
      rw [Oms.hookState, ht]
      rfl
    rw [HookState.unregister, hsome]
    show _ = if (s.drivers t).hasEventCallback then _ else _
    simp only
    split_ifs
    · exact hookState_foldl_setHook (fun _ _ => rfl) s omsMaxInterfaces
    · rfl

theorem omsEnumerate_hooks (s : Oms) (t : ℕ) : (omsEnumerate s t).hookState = s.hookState :=
  List.foldlRecOn (motive := fun s' => s'.hookState = s.hookState) _ _
    (Oms.hookState_upd s rfl rfl) fun s' hs' _ _ => (Oms.hookState_upd s' rfl rfl).trans hs'

theorem omsAddDevices_hooks (s : Oms) (hasProc : Bool) (devices : List (ℤ × SymbolAnswer)) :
    (omsAddDevices s hasProc devices).hookState =
      s.hookState.handle (.addDevices hasProc devices) := by
  cases hasProc with
  | false => rfl
  | true =>
    have hloc := omsLocateDispatch_hooks s devices
    simp only [omsAddDevices, Bool.true_eq_false, if_false, HookState.handle, if_true, ← hloc]
    rcases ht : (omsLocateDispatch s devices).1.g.table with _ | t
    · have hnone := (omsLocateDispatch s devices).1.bound_eq_none.2 ht
      rw [HookState.register, hnone]
    · have hsome : (omsLocateDispatch s devices).1.hookState.bound =
          some (t, (omsLocateDispatch s devices).1.g.deviceRef) := by
        rw [Oms.hookState, ht]
        rfl
      rw [HookState.register, hsome]
      exact (omsEnumerate_hooks _ t).trans (omsRegisterCallbacks_hooks _ t)

/-- **A message** acts on the hooks as the abstract one. -/
theorem omsHandleMessage_hooks (s : Oms) (m : OmsMessage) :
    (omsHandleMessage s m).hookState = s.hookState.handle m := by
  cases m with
  | init answers => exact omsInit_hooks s answers
  | dispose => exact omsDispose_hooks s
  | addDevices hasProc devices => exact omsAddDevices_hooks s hasProc devices
  | startMIDI => rfl
  | startMIDI2 devices =>
    exact (omsRxDrainAll_hooks false _).trans (omsLocateDispatch_hooks s devices)
  | stopMIDI => rfl
  | getPortSendProc portID sendPars upp =>
    show (omsGetPortSendProc s portID sendPars upp).1.hookState = s.hookState
    unfold omsGetPortSendProc
    split
    · split
      · rfl
      · simp only
        split_ifs <;> split <;> rfl
    · rfl
  | setPortReceiveRefNum portID ioRefNum =>
    show (omsSetPortReceiveRefNum s portID ioRefNum).hookState = s.hookState
    unfold omsSetPortReceiveRefNum
    split
    · rfl
    · rfl
  | other => rfl

/-! ### Transfers -/

/-- The send hook. -/
theorem omsTxSend_hooks {pkt : Option OmsMidiPacket} {refCon : ℕ}
    (hs : omsTxSend s pkt refCon = some s') : s'.hookState = s.hookState := by
  have hchunk : ∀ {ifaceNo cable mode : ℕ} {p : OmsMidiPacket},
      omsTxChunk s ifaceNo cable mode p = some s' → s'.hookState = s.hookState := by
    intro ifaceNo cable mode p h
    obtain ⟨r, -, rfl⟩ := Option.map_eq_some_iff.1 h
    rfl
  unfold omsTxSend at hs
  split at hs
  · exact Option.some.inj hs ▸ rfl
  simp only at hs
  split_ifs at hs
  · exact Option.some.inj hs ▸ rfl
  · exact hchunk hs
  · obtain rfl := Option.some.inj hs
    unfold omsTxMessage
    simp only
    split_ifs <;> rfl
  · exact hchunk hs

/-- A read completion. -/
theorem omsCompletion_hooks (s : Oms) (t i : ℕ) (data : List UInt8) :
    (omsCompletion s t i data).hookState = s.hookState := by
  have hstored : ∀ r, (s.setRing t i r).hookState = s.hookState := s.hookState_setRing t i
  unfold omsCompletion
  simp only
  split_ifs
  · rfl
  · exact (omsRxDrain_hooks i _ _).trans (hstored _)
  · exact hstored _

end

end Usbmidi9
