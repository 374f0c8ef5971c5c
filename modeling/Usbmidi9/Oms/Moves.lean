/-
  USBMIDI9 — the moves of the shim.

  Every event of `omsStep` is a sequence of a few kinds of moves (`OmsMove`,
  `omsStep_moves`): drains, the binding of a class driver, an interface that is
  marked valid, a reset of streams, a cleared state, a start or stop of MIDI, the
  bytes of a transfer, and whatever a drain does not look at.  An invariant of
  the receive path is preserved by every event if it is by every move.
-/
import Usbmidi9.Oms.Drain

namespace Usbmidi9

/-! ## Moves -/

/-- Nothing changes that a drain looks at. -/
structure OmsQuiet (s s' : Oms) : Prop where
  ifaces : s'.g.ifaces = s.g.ifaces
  table : s'.g.table = s.g.table
  midiStarted : s'.g.midiStarted = s.g.midiStarted
  session : s'.session = s.session
  rings : ∀ t, (s'.drivers t).rings = (s.drivers t).rings
  count : ∀ t, (s'.drivers t).count = (s.drivers t).count
  trace : ∃ new, s'.trace = s.trace ++ new ∧ ∀ e ∈ new, e.delivery = none

/-- A port whose receive stream was left alone or initialised. -/
def PortMoved (cable : ℕ) (p p' : OmsPort) : Prop :=
  p'.rx = p.rx ∧ p'.valid = p.valid ∨ p'.rx = um9RxInit p.rx cable

/-- Some ports moved. -/
structure PortsMoved (s s' : Oms) : Prop where
  port : ∀ i, ∀ c < omsCables, PortMoved c (s.port i c) (s'.port i c)
  valid : ∀ i, (s'.g.ifaces i).valid = (s.g.ifaces i).valid
  table : s'.g.table = s.g.table
  midiStarted : s'.g.midiStarted = s.g.midiStarted
  session : s'.session = s.session
  drivers : s'.drivers = s.drivers
  trace : s'.trace = s.trace

/-- While MIDI is running, every byte in the ring arrived in this session. -/
def Oms.FreshRing (s : Oms) (t i : ℕ) : Prop :=
  s.g.midiStarted = true →
    ∀ b ∈ ((s.drivers t).rings i).queue ringSize, b.session = some s.session

/-- A move.  Under `F`, an interface is marked valid only if its ring is fresh. -/
inductive OmsMove (F : Prop) : Oms → Oms → Prop
  | quiet {s s' : Oms} : OmsQuiet s s' → OmsMove F s s'
  | ports {s s' : Oms} : PortsMoved s s' → OmsMove F s s'
  | drain {s : Oms} (i : ℕ) {deliver : Bool} :
    (deliver = true → s.g.midiStarted = true) → OmsMove F s (omsRxDrain i deliver s)
  | bind {s : Oms} (t : ℕ) (deviceRef : ℤ) :
    s.g.table = none → OmsMove F s (s.bound t deviceRef)
  | validate {s : Oms} {t i : ℕ} : s.g.table = some t → i < (s.drivers t).count →
    (F → (s.g.ifaces i).valid = false → s.FreshRing t i) → OmsMove F s (omsValidate s i)
  | clear {s : Oms} {g : OmsGlobals} : g.ifaces = (fun _ => .zero) → g.table = none →
    OmsMove F s { s with g := g }
  | start {s : Oms} : OmsMove F s (omsStart s)
  | stop {s : Oms} : OmsMove F s (omsStopMidi s)
  | store {s : Oms} (t i : ℕ) (data : List UInt8) :
    OmsMove F s
      (s.setRing t i (um9RingEnqueue ringSize ((s.drivers t).rings i) (s.stamp data)).1)
  | appear {s : Oms} (t : ℕ) (buf : ℕ → RingByte) : OmsMove F s (omsAppear s t buf)

/-- A sequence of moves. -/
abbrev OmsMoves (F : Prop) : Oms → Oms → Prop := Relation.ReflTransGen (OmsMove F)

namespace OmsQuiet
variable {s s' s'' : Oms}

theorem refl (s : Oms) : OmsQuiet s s :=
  ⟨rfl, rfl, rfl, rfl, fun _ => rfl, fun _ => rfl, [], (List.append_nil _).symm, nofun⟩

theorem trans (h : OmsQuiet s s') (h' : OmsQuiet s' s'') : OmsQuiet s s'' := by
  obtain ⟨new, hn, he⟩ := h.trace
  obtain ⟨new', hn', he'⟩ := h'.trace
  refine ⟨h'.ifaces.trans h.ifaces, h'.table.trans h.table, h'.midiStarted.trans h.midiStarted,
    h'.session.trans h.session, fun t => (h'.rings t).trans (h.rings t),
    fun t => (h'.count t).trans (h.count t), new ++ new', ?_, ?_⟩
  · rw [hn', hn, List.append_assoc]
  · intro e hm
    exact (List.mem_append.1 hm).elim (he e) (he' e)

/-- A change of other fields of `g_oms`. -/
theorem upd (s : Oms) {f : OmsGlobals → OmsGlobals} (hi : (f s.g).ifaces = s.g.ifaces)
    (ht : (f s.g).table = s.g.table) (hm : (f s.g).midiStarted = s.g.midiStarted) :
    OmsQuiet s (s.upd f) :=
  ⟨hi, ht, hm, rfl, fun _ => rfl, fun _ => rfl, [], (List.append_nil _).symm, nofun⟩

theorem log (s : Oms) {es : List OmsEntry} (h : ∀ e ∈ es, e.delivery = none) :
    OmsQuiet s (s.log es) :=
  ⟨rfl, rfl, rfl, rfl, fun _ => rfl, fun _ => rfl, es, rfl, h⟩

/-- A driver whose rings and interfaces stay. -/
theorem setDriver (s : Oms) (t : ℕ) {d : ClassDriver} (hr : d.rings = (s.drivers t).rings)
    (hc : d.count = (s.drivers t).count) : OmsQuiet s (s.setDriver t d) := by
  have hsame : ∀ t', ((s.setDriver t d).drivers t').rings = (s.drivers t').rings ∧
      ((s.setDriver t d).drivers t').count = (s.drivers t').count := fun t' => by
    by_cases ht : t' = t
    · subst ht; simp only [Oms.setDriver, Function.update_self]; exact ⟨hr, hc⟩
    · simp only [Oms.setDriver, Function.update_of_ne ht]; exact ⟨trivial, trivial⟩
  exact ⟨rfl, rfl, rfl, rfl, fun t' => (hsame t').1, fun t' => (hsame t').2, [],
    (List.append_nil _).symm, List.forall_mem_nil _⟩

theorem setHook (s : Oms) (t i : ℕ) (hook : Bool) : OmsQuiet s (s.setHook t i hook) :=
  setDriver s t rfl rfl

theorem foldl {ι : Type*} {f : Oms → ι → Oms} (h : ∀ s x, OmsQuiet s (f s x)) (l : List ι)
    (s : Oms) : OmsQuiet s (l.foldl f s) := by
  induction l generalizing s with
  | nil => exact refl s
  | cons x l ih => exact (h s x).trans (ih _)

theorem moves {F : Prop} (h : OmsQuiet s s') : OmsMoves F s s' := .single (.quiet h)

end OmsQuiet

section
variable {F : Prop} {s s' : Oms}

theorem omsRegisterCallbacks_quiet (s : Oms) (t : ℕ) : OmsQuiet s (omsRegisterCallbacks s t) :=
  (OmsQuiet.upd s (f := fun g => { g with callbackRegistered := false }) rfl rfl rfl).trans
    (.foldl (fun s i => (OmsQuiet.setHook s t i true).trans (.upd _ rfl rfl rfl)) _ _)

theorem mapPorts_moved (s : Oms) {f : OmsIface → ℕ → OmsPort → OmsPort}
    (hf : ∀ iface c p, PortMoved c p (f iface c p)) : PortsMoved s (s.mapPorts f) :=
  ⟨fun _ c _ => hf _ c _, fun _ => rfl, rfl, rfl, rfl, rfl, rfl⟩

theorem PortMoved.refl (c : ℕ) (p : OmsPort) : PortMoved c p p := .inl ⟨rfl, rfl⟩

theorem setPort_moved (s : Oms) {i c : ℕ} {p : OmsPort} (h : PortMoved c (s.port i c) p) :
    PortsMoved s (s.setPort i c p) := by
  refine ⟨?_, ?_, rfl, rfl, rfl, rfl, rfl⟩
  · intro j k _
    by_cases hj : j = i
    · subst hj
      by_cases hk : k = c
      · subst hk
        simpa only [Oms.port, Oms.setPort, Oms.upd, Function.update_self] using h
      · simp only [Oms.port, Oms.setPort, Oms.upd, Function.update_self, Function.update_of_ne hk]
        exact .refl _ _
    · simp only [Oms.port, Oms.setPort, Oms.upd, Function.update_of_ne hj]
      exact .refl _ _
  · intro j
    by_cases hj : j = i
    · subst hj; simp only [Oms.setPort, Oms.upd, Function.update_self]
    · simp only [Oms.setPort, Oms.upd, Function.update_of_ne hj]

/-! ## Functions -/

/-- What every drain keeps, `oms_rx_drain_all` keeps. -/
theorem omsRxDrainAll_inv {I : Oms → Prop} {deliver : Bool}
    (hI : ∀ s i, I s → I (omsRxDrain i deliver s)) (h : I s) : I (omsRxDrainAll deliver s) := by
  unfold omsRxDrainAll
  split_ifs
  · exact h
  · apply List.foldlRecOn _ _ h
    intro s hs i _
    split_ifs
    · exact hI s i hs
    · exact hs

/-- Without valid interfaces there is nothing to drain. -/
theorem omsRxDrainAll_idle (h : ∀ i, (s.g.ifaces i).valid = false) (deliver : Bool) :
    omsRxDrainAll deliver s = s := by
  unfold omsRxDrainAll
  split_ifs
  · rfl
  · apply List.foldlRecOn (motive := fun s' => s' = s) _ _ rfl
    intro s' hs i _
    rw [hs, h i]
    rfl

theorem omsRxDrainAll_moves {deliver : Bool} (hd : deliver = true → s.g.midiStarted = true) :
    OmsMoves F s (omsRxDrainAll deliver s) := by
  unfold omsRxDrainAll
  by_cases ht : s.g.table = none
  · rw [if_pos ht]
  rw [if_neg ht]
  clear ht
  generalize List.range omsMaxInterfaces = l
  induction l generalizing s with
  | nil => exact .refl
  | cons i l ih =>
    rw [List.foldl_cons]
    split_ifs
    · refine .trans (.single (.drain i hd)) (ih ?_)
      intro h
      exact (omsRxDrain_frame i deliver s).2.1.trans (hd h)
    · exact ih hd

theorem locateFailed_quiet (s : Oms) : OmsQuiet s s.locateFailed :=
  .upd s (f := fun g => { g with locateFailures := g.locateFailures + 1 }) rfl rfl rfl

/-! ### Lookups -/

/-- The rings of the interfaces that are not valid yet are fresh. -/
def Oms.RestFresh (s : Oms) (t : ℕ) : Prop :=
  ∀ i < min (s.drivers t).count omsMaxInterfaces,
    (s.g.ifaces i).valid = false → s.FreshRing t i

/-- The class driver of a `FindSymbol` answer, if it can be bound. -/
def SymbolAnswer.bindable (drivers : ℕ → ClassDriver) (sym : SymbolAnswer) : Option ℕ :=
  if sym.err = omsNoErr then
    sym.table.filter fun t =>
      omsDispatchMinVersion ≤ (drivers t).version ∧ (drivers t).hasEventCallback = true
  else none

/-- The class driver that is bound after a lookup. -/
def omsFound (s : Oms) (devices : List (ℤ × SymbolAnswer)) : Option ℕ :=
  s.g.table <|> devices.findSome? fun d => d.2.bindable s.drivers

/-- What `Oms.RestFresh` looks at stays. -/
structure RestKept (s s' : Oms) : Prop where
  valid : ∀ i, (s'.g.ifaces i).valid = (s.g.ifaces i).valid
  midiStarted : s'.g.midiStarted = s.g.midiStarted
  session : s'.session = s.session
  count : ∀ t, (s'.drivers t).count = (s.drivers t).count
  rings : ∀ t i, (s.g.ifaces i).valid = false →
    (s'.drivers t).rings i = (s.drivers t).rings i

namespace RestKept
variable {s'' : Oms}

theorem refl (s : Oms) : RestKept s s := ⟨fun _ => rfl, rfl, rfl, fun _ => rfl, fun _ _ _ => rfl⟩

theorem trans (h : RestKept s s') (h' : RestKept s' s'') : RestKept s s'' := by
  refine ⟨fun i => (h'.valid i).trans (h.valid i), h'.midiStarted.trans h.midiStarted,
    h'.session.trans h.session, fun t => (h'.count t).trans (h.count t), ?_⟩
  intro t i hv
  exact (h'.rings t i ((h.valid i).trans hv)).trans (h.rings t i hv)

theorem quiet (h : OmsQuiet s s') : RestKept s s' := by
  refine ⟨fun i => by rw [h.ifaces], h.midiStarted, h.session, h.count, ?_⟩
  intro t i _
  rw [h.rings]

theorem drain (s : Oms) (i : ℕ) (deliver : Bool) : RestKept s (omsRxDrain i deliver s) := by
  obtain ⟨-, hm, hs, hv, hc, hr⟩ := omsRxDrain_frame i deliver s
  refine ⟨hv, hm, hs, hc, ?_⟩
  intro t j hj
  exact hr t j (.inl fun hd => by simp [hd.valid] at hj)

theorem restFresh (h : RestKept s s') {t : ℕ} (hf : s.RestFresh t) : s'.RestFresh t := by
  intro i hi hv hm b hb
  rw [h.count] at hi
  rw [h.valid] at hv
  rw [h.midiStarted] at hm
  rw [h.rings t i hv] at hb
  rw [h.session]
  exact hf i hi hv hm b hb

end RestKept

/-- The state in which a class driver was bound and the backlog is about to be
    drained. -/
def Oms.attached (s : Oms) (t : ℕ) (deviceRef : ℤ) : Oms :=
  omsRegisterCallbacks (omsResetPorts (s.bound t deviceRef)) t

theorem omsBindDispatch_eq (s : Oms) (deviceRef : ℤ) (sym : SymbolAnswer) :
    omsBindDispatch s deviceRef sym =
      match sym.bindable s.drivers with
      | some t => (omsRxDrainAll (s.attached t deviceRef).g.midiStarted (s.attached t deviceRef),
          omsNoErr)
      | none => (s.locateFailed, if sym.err ≠ omsNoErr then sym.err else omsBadDispatchTable) := by
  unfold omsBindDispatch SymbolAnswer.bindable
  by_cases herr : sym.err = omsNoErr
  swap
  · simp only [ne_eq, herr, not_false_eq_true, if_true, if_false]
  rcases ht : sym.table with _ | t
  · simp only [ne_eq, herr, not_true_eq_false, if_false, if_true, Option.filter_none]
  have hiff : (omsDispatchMinVersion ≤ (s.drivers t).version ∧
      (s.drivers t).hasEventCallback = true) ↔
      ¬((s.drivers t).version < omsDispatchMinVersion ∨ (s.drivers t).hasEventCallback = false) := by
    rw [not_or, Nat.not_lt, Bool.not_eq_false]
  by_cases hbad : (s.drivers t).version < omsDispatchMinVersion ∨
    (s.drivers t).hasEventCallback = false
  · simp only [ne_eq, herr, not_true_eq_false, if_false, if_true, Option.filter_some, hiff, hbad,
      decide_false, Bool.false_eq_true]
  · simp only [ne_eq, herr, not_true_eq_false, if_false, if_true, Option.filter_some, hiff, hbad,
      not_false_eq_true, decide_true]
    rfl

theorem attached_kept (s : Oms) (t : ℕ) (deviceRef : ℤ) :
    RestKept s (s.attached t deviceRef) ∧ (s.attached t deviceRef).g.table = some t := by
  have hreset : RestKept s (omsResetPorts (s.bound t deviceRef)) :=
    ⟨fun _ => rfl, rfl, rfl, fun _ => rfl, fun _ _ _ => rfl⟩
  have hquiet := omsRegisterCallbacks_quiet (omsResetPorts (s.bound t deviceRef)) t
  exact ⟨hreset.trans (.quiet hquiet), hquiet.table⟩

/-- A binding takes the class driver of the answer, if that can be bound. -/
theorem omsBindDispatch_found (s : Oms) (deviceRef : ℤ) (sym : SymbolAnswer) :
    match sym.bindable s.drivers with
    | some t => RestKept s (omsBindDispatch s deviceRef sym).1 ∧
        (omsBindDispatch s deviceRef sym).2 = omsNoErr ∧
        (omsBindDispatch s deviceRef sym).1.g.table = some t
    | none => (omsBindDispatch s deviceRef sym).1 = s.locateFailed ∧
        (omsBindDispatch s deviceRef sym).2 ≠ omsNoErr := by
  rw [omsBindDispatch_eq]
  rcases sym.bindable s.drivers with _ | t
  · refine ⟨rfl, ?_⟩
    show (if sym.err ≠ omsNoErr then sym.err else omsBadDispatchTable) ≠ omsNoErr
    split_ifs with herr
    · exact herr
    · decide
  · obtain ⟨hkept, htable⟩ := attached_kept s t deviceRef
    refine ⟨?_, rfl, ?_⟩
    · exact omsRxDrainAll_inv (fun s' i h => h.trans (.drain s' i _)) hkept
    · exact omsRxDrainAll_inv (I := fun s => s.g.table = some t)
        (fun s' i h => (omsRxDrain_frame i _ s').1.trans h) htable

theorem omsBindDispatch_moves (ht : s.g.table = none) (deviceRef : ℤ) (sym : SymbolAnswer) :
    OmsMoves F s (omsBindDispatch s deviceRef sym).1 := by
  rw [omsBindDispatch_eq]
  rcases sym.bindable s.drivers with _ | t
  · exact (locateFailed_quiet s).moves
  · have hreset : PortsMoved (s.bound t deviceRef) (omsResetPorts (s.bound t deviceRef)) := by
      apply mapPorts_moved _
      intro _ c p
      split_ifs
      · exact .inr rfl
      · exact .refl c p
    exact .trans (.single (.bind t deviceRef ht)) (.trans (.single (.ports hreset))
      (.trans (omsRegisterCallbacks_quiet _ t).moves (omsRxDrainAll_moves id)))

/-- `g_oms` with another count of failed lookups. -/
def Oms.withFailures (s : Oms) (n : UInt32) : Oms :=
  s.upd fun g => { g with locateFailures := n }

/-- **A lookup** of a class driver ends without one, or by binding one to the state
    that it started from; it changes nothing but the count of failures before. -/
theorem omsLocateDispatch_cases {s : Oms} (ht : s.g.table = none)
    (devices : List (ℤ × SymbolAnswer)) :
    ∃ n, (omsFound s devices = none ∧ (omsLocateDispatch s devices).1 = s.withFailures n) ∨
      ∃ t deviceRef, omsFound s devices = some t ∧
        (omsLocateDispatch s devices).1 =
          omsRxDrainAll ((s.withFailures n).attached t deviceRef).g.midiStarted
            ((s.withFailures n).attached t deviceRef) := by
  have hwalk : (omsLocateDispatch s devices).1 = (omsWalk s devices).1 := by
    rw [omsLocateDispatch, if_neg (not_not.2 ht)]
  have hall : omsFound s devices = devices.findSome? fun d => d.2.bindable s.drivers := by
    rw [omsFound, ht]
    rfl
  rw [hwalk, hall]
  clear hwalk hall
  induction devices generalizing s with
  | nil => exact ⟨_, .inl ⟨rfl, rfl⟩⟩
  | cons d devices ih =>
    have hbind := omsBindDispatch_eq s d.1 d.2
    have hfound := omsBindDispatch_found s d.1 d.2
    rw [List.findSome?_cons]
    unfold omsWalk
    simp only
    rcases hb : d.2.bindable s.drivers with _ | t
    · rw [hb] at hfound
      obtain ⟨heq, hne⟩ := hfound
      rw [if_neg hne, heq]
      obtain ⟨n, h⟩ := ih (s := s.locateFailed) ht
      exact ⟨n, h⟩
    · rw [hb] at hfound hbind
      rw [if_pos hfound.2.1, hbind]
      exact ⟨s.g.locateFailures, .inr ⟨t, d.1, rfl, rfl⟩⟩

/-- A lookup's moves, and the class driver that it ends with. -/
structure Located (F : Prop) (s s' : Oms) (found : Option ℕ) : Prop where
  moves : OmsMoves F s s'
  kept : RestKept s s'
  table : s'.g.table = found

theorem omsWalk_located (ht : s.g.table = none) (devices : List (ℤ × SymbolAnswer)) :
    Located F s (omsWalk s devices).1 (devices.findSome? fun d => d.2.bindable s.drivers) := by
  have hquiet := locateFailed_quiet s
  induction devices generalizing s with
  | nil => exact ⟨hquiet.moves, .quiet hquiet, ht⟩
  | cons d devices ih =>
    have hbind := omsBindDispatch_found s d.1 d.2
    unfold omsWalk
    simp only
    rw [List.findSome?_cons]
    rcases hb : d.2.bindable s.drivers with _ | t
    · rw [hb] at hbind
      obtain ⟨heq, hne⟩ := hbind
      obtain ⟨hmoves, hkept, hfound⟩ := ih (s := s.locateFailed) ht (locateFailed_quiet _)
      rw [if_neg hne, heq]
      exact ⟨.trans hquiet.moves hmoves, .trans (.quiet hquiet) hkept, hfound⟩
    · rw [hb] at hbind
      obtain ⟨hkept, hok, htable⟩ := hbind
      rw [if_pos hok]
      exact ⟨omsBindDispatch_moves ht d.1 d.2, hkept, htable⟩

theorem omsLocateDispatch_located (s : Oms) (devices : List (ℤ × SymbolAnswer)) :
    Located F s (omsLocateDispatch s devices).1 (omsFound s devices) := by
  unfold omsLocateDispatch omsFound
  rcases ht : s.g.table with _ | t
  · simpa using omsWalk_located ht devices
  · exact ⟨.refl, .refl s, by simp [ht]⟩

theorem omsAttachDevice_moves (deviceRef : ℤ) (conn : Option SymbolAnswer) :
    OmsMoves F s (omsAttachDevice s deviceRef conn).1 := by
  unfold omsAttachDevice
  split_ifs with ht
  · exact .refl
  split
  · exact .refl
  · exact omsBindDispatch_moves (not_not.1 ht) deviceRef _

theorem omsUsbNotify_moves (n : DeviceNotification) : OmsMoves F s (omsUsbNotify s n) := by
  cases n with
  | add deviceRef conn => exact omsAttachDevice_moves deviceRef conn
  | remove deviceRef =>
    simp only [omsUsbNotify]
    split_ifs
    · exact .single (.clear rfl rfl)
    · exact .refl
  | other => exact .refl

theorem omsRelease_quiet (s : Oms) : OmsQuiet s (omsRelease s) := by
  unfold omsRelease
  refine .trans ?_ (.trans (.upd _ (f := fun g => { g with sendUpp := none }) rfl rfl rfl)
    (.log _ ?_))
  · split_ifs
    · exact .trans (.upd s (f := fun g => { g with notifierInstalled := false }) rfl rfl rfl)
        (.log _ (by simp [OmsEntry.delivery]))
    · exact .refl s
  · intro e he
    obtain ⟨upp, -, rfl⟩ := List.mem_map.1 he
    rfl

theorem omsNewSendUpp_quiet (s : Oms) (upp : Option ℕ) : OmsQuiet s (omsNewSendUpp s upp) := by
  refine .trans (.upd _ (f := fun g => { g with sendUpp := upp }) rfl rfl rfl)
    (.log _ ?_)
  intro e he
  obtain ⟨upp, -, rfl⟩ := List.mem_map.1 he
  rfl

theorem installed_quiet (s : Oms) (token : Option ℕ) : OmsQuiet s (s.installed token) := by
  cases token with
  | none => exact .refl s
  | some token =>
    exact .trans (.upd s (f := fun g => { g with notifierInstalled := true, token := token })
      rfl rfl rfl) (.log _ (by simp [OmsEntry.delivery]))

theorem omsNotifications_moves (l : List DeviceNotification) :
    OmsMoves F s (l.foldl omsUsbNotify s) := by
  induction l generalizing s with
  | nil => exact .refl
  | cons n l ih => exact .trans (omsUsbNotify_moves n) ih

theorem omsInit_moves (a : InitAnswers) : OmsMoves F s (omsInit s a) := by
  have hclear : OmsMoves F s (omsRelease s).cleared :=
    .trans (omsRelease_quiet s).moves (.single (.clear (g := .zero) rfl rfl))
  have hinstall : OmsMoves F s ((a.installed.foldl omsUsbNotify
      (omsNewSendUpp (omsRelease s).cleared a.upp)).installed a.token) :=
    .trans hclear (.trans (omsNewSendUpp_quiet _ a.upp).moves
      (.trans (omsNotifications_moves a.installed) (installed_quiet _ a.token).moves))
  exact .trans hinstall (.trans (omsLocateDispatch_located _ a.devices).moves
    (OmsQuiet.upd _ (f := fun g => { g with rxRoutine := a.routine }) rfl rfl rfl).moves)

theorem omsDispose_moves : OmsMoves F s (omsDispose s) := by
  unfold omsDispose
  simp only
  refine .trans (.trans ?_ (omsRelease_quiet _).moves) (.single (.clear (g := .zero) rfl rfl))
  split
  · split_ifs
    · exact (OmsQuiet.foldl (fun s i => .setHook s _ i false) _ s).moves
    · exact .refl
  · exact .refl

theorem omsValidate_moves {t : ℕ} {l : List ℕ} (ht : s.g.table = some t)
    (hl : ∀ i ∈ l, i < (s.drivers t).count ∧
      (F → (s.g.ifaces i).valid = false → s.FreshRing t i)) :
    OmsMoves F s (l.foldl omsValidate s) := by
  induction l generalizing s with
  | nil => exact .refl
  | cons i l ih =>
    obtain ⟨hi, hf⟩ := hl i (by simp)
    refine .trans (.single (.validate ht hi hf)) (ih ht ?_)
    intro j hj
    obtain ⟨hj, hf⟩ := hl j (by simp [hj])
    refine ⟨hj, fun h hv => hf h ?_⟩
    by_cases hji : j = i
    · subst hji
      simp only [omsValidate, Oms.upd, Function.update_self, Bool.true_eq_false] at hv
    · simpa only [omsValidate, Oms.upd, Function.update_of_ne hji] using hv

theorem omsEnumerate_moves {t : ℕ} (ht : s.g.table = some t) (hF : F → s.RestFresh t) :
    OmsMoves F s (omsEnumerate s t) := by
  have hquiet : OmsQuiet s (s.upd fun g =>
      { g with nInterfaces := min (s.drivers t).count omsMaxInterfaces }) := .upd s rfl rfl rfl
  refine .trans hquiet.moves (omsValidate_moves ht ?_)
  intro i hi
  have hi' := List.mem_range.1 hi
  exact ⟨hi'.trans_le (min_le_left ..), fun h hv =>
    (RestKept.quiet hquiet).restFresh (hF h) i hi' hv⟩

/-- The condition on `omdvAddDevices`: the interfaces that it is about to mark
    valid have fresh rings. -/
def OmsMessage.AddFresh (s : Oms) : OmsMessage → Prop
  | .addDevices true devices => ∀ t ∈ omsFound s devices, s.RestFresh t
  | _ => True

instance (s : Oms) (t : ℕ) : Decidable (s.RestFresh t) :=
  inferInstanceAs (Decidable (∀ i < _, _ → _ → ∀ b ∈ Ring.queue ringSize _, _))

instance (s : Oms) : ∀ m : OmsMessage, Decidable (m.AddFresh s)
  | .addDevices true devices =>
    inferInstanceAs (Decidable (∀ t ∈ omsFound s devices, s.RestFresh t))
  | .addDevices false _ | .init _ | .dispose | .startMIDI | .startMIDI2 _ | .stopMIDI
  | .getPortSendProc .. | .setPortReceiveRefNum .. | .other => isTrue trivial

theorem omsAddDevices_moves {hasProc : Bool} {devices : List (ℤ × SymbolAnswer)}
    (hF : F → (OmsMessage.addDevices hasProc devices).AddFresh s) :
    OmsMoves F s (omsAddDevices s hasProc devices) := by
  cases hasProc with
  | false => exact .refl
  | true =>
    obtain ⟨hmoves, hkept, hfound⟩ := omsLocateDispatch_located (F := F) s devices
    refine .trans hmoves ?_
    simp only [omsAddDevices, Bool.true_eq_false, if_false]
    rcases ht : (omsLocateDispatch s devices).1.g.table with _ | t
    · exact .refl
    have hquiet := omsRegisterCallbacks_quiet (omsLocateDispatch s devices).1 t
    refine .trans hquiet.moves (omsEnumerate_moves (hquiet.table.trans ht) ?_)
    intro h
    exact (hkept.trans (.quiet hquiet)).restFresh (hF h t (hfound ▸ ht))

theorem omsSetPortReceiveRefNum_moves (portID : Option OmsPortID) (ioRefNum : Int16) :
    OmsMoves F s (omsSetPortReceiveRefNum s portID ioRefNum) := by
  unfold omsSetPortReceiveRefNum
  split
  · exact .refl
  · exact .single (.ports (setPort_moved s (.inr rfl)))

theorem omsGetPortSendProc_moves (portID : Option OmsPortID) (sendPars : Option OmsSendParams)
    (upp : Option ℕ) : OmsMoves F s (omsGetPortSendProc s portID sendPars upp).1 := by
  unfold omsGetPortSendProc
  split
  · split
    · exact .refl
    · simp only
      split_ifs <;> split <;> first | exact .refl | exact (omsNewSendUpp_quiet s upp).moves
  · exact .refl

theorem omsTxEmit_quiet (s : Oms) (portCode : ℕ) (ps : List EventPacket) :
    OmsQuiet s (omsTxEmit s portCode ps) := by
  refine .trans (.upd _ (f := fun g => { g with
    txConverted := g.txConverted + UInt32.ofNat ps.length
    txDropped := g.txDropped + UInt32.ofNat ps.length }) rfl rfl rfl) (.log _ ?_)
  intro e he
  obtain ⟨p, -, rfl⟩ := List.mem_map.1 he
  rfl

theorem malformed_quiet (s : Oms) : OmsQuiet s s.malformed :=
  .upd s (f := fun g => { g with txMalformed := g.txMalformed + 1 }) rfl rfl rfl

/-- Only the carry differs. -/
structure SameStreams (p p' : OmsPort) : Prop where
  rx : p'.rx = p.rx
  tx : p'.tx = p.tx
  valid : p'.valid = p.valid
  ioRefNum : p'.ioRefNum = p.ioRefNum

theorem omsTxAppend_port {p : OmsPort} {cable mode len : ℕ} {data : List UInt8} {n : UInt32}
    {r : ChunkResult} (h : omsTxAppend p cable mode data len n = some r) : SameStreams p r.port := by
  unfold omsTxAppend at h
  split at h
  · simp only at h
    split_ifs at h <;> cases h <;> exact ⟨rfl, rfl, rfl, rfl⟩
  · cases h

/-- A SysEx chunk moves the carry only. -/
theorem omsTxSysexChunk_port {p : OmsPort} {cable mode len : ℕ} {data : List UInt8}
    {r : ChunkResult} (h : omsTxSysexChunk p cable mode data len = some r) :
    SameStreams p r.port := by
  have hsame : SameStreams p (p.begun mode data len).1 := by
    unfold OmsPort.begun
    split_ifs <;> exact ⟨rfl, rfl, rfl, rfl⟩
  have htrans : ∀ {p'}, SameStreams (p.begun mode data len).1 p' → SameStreams p p' := fun h' =>
    ⟨h'.rx.trans hsame.rx, h'.tx.trans hsame.tx, h'.valid.trans hsame.valid,
      h'.ioRefNum.trans hsame.ioRefNum⟩
  apply htrans
  rcases omsTxSysexChunk_cases p cable mode data len with
    ⟨hnone, -⟩ | ⟨hrefused, -⟩ | ⟨hfull, -⟩ | ⟨happend, -⟩
  · rw [hnone] at h
    cases h
  · rw [hrefused] at h
    cases h
    exact ⟨rfl, rfl, rfl, rfl⟩
  · rw [hfull] at h
    cases h
    exact ⟨rfl, rfl, rfl, rfl⟩
  · exact omsTxAppend_port (happend ▸ h)

theorem omsTxChunk_moves {ifaceNo cable mode : ℕ} {pkt : OmsMidiPacket}
    (h : omsTxChunk s ifaceNo cable mode pkt = some s') : OmsMoves F s s' := by
  obtain ⟨r, hr, rfl⟩ := Option.map_eq_some_iff.1 h
  have hsame := omsTxSysexChunk_port hr
  exact .trans (.single (.ports (setPort_moved s (.inl ⟨hsame.rx, hsame.valid⟩))))
    ((OmsQuiet.upd _ (f := fun g => { g with txMalformed := g.txMalformed + r.malformed })
      rfl rfl rfl).trans (omsTxEmit_quiet _ _ _)).moves

theorem omsTxMessage_moves (ifaceNo cable : ℕ) (pkt : OmsMidiPacket) :
    OmsMoves F s (omsTxMessage s ifaceNo cable pkt) := by
  unfold omsTxMessage
  split_ifs
  · exact (malformed_quiet s).moves
  have hport : ∀ tx, OmsMoves F s (s.setPort (ifaceNo - 1) cable
      { s.port (ifaceNo - 1) cable with tx := tx }) := fun tx =>
    .single (.ports (setPort_moved s (.inl ⟨rfl, rfl⟩)))
  simp only
  split_ifs
  · exact .trans (hport _) (malformed_quiet _).moves
  · exact .trans (hport _) (omsTxEmit_quiet _ _ _).moves

theorem omsTxSend_moves {pkt : Option OmsMidiPacket} {refCon : ℕ}
    (h : omsTxSend s pkt refCon = some s') : OmsMoves F s s' := by
  unfold omsTxSend at h
  split at h
  · exact Option.some.inj h ▸ (malformed_quiet s).moves
  simp only at h
  split_ifs at h
  · exact Option.some.inj h ▸ (malformed_quiet s).moves
  · exact omsTxChunk_moves h
  · exact Option.some.inj h ▸ omsTxMessage_moves _ _ _
  · exact omsTxChunk_moves h

/-! ## Events -/

theorem omsRxEvent_moves (i : ℕ) (s : Oms) : OmsMoves F s (omsRxEvent i s) :=
  .trans (OmsQuiet.upd s (f := fun g => { g with events := g.events + 1 }) rfl rfl rfl).moves
    (.single (.drain i id))

theorem omsCompletion_moves (t i : ℕ) (data : List UInt8) :
    OmsMoves F s (omsCompletion s t i data) := by
  unfold omsCompletion
  simp only
  split_ifs
  · exact .refl
  · exact .trans (.single (.store t i data)) (omsRxEvent_moves i _)
  · exact .single (.store t i data)

theorem omsHandleMessage_moves {m : OmsMessage} (hF : F → m.AddFresh s) :
    OmsMoves F s (omsHandleMessage s m) := by
  cases m with
  | init answers => exact omsInit_moves answers
  | dispose => exact omsDispose_moves
  | addDevices hasProc devices => exact omsAddDevices_moves hF
  | startMIDI => exact .refl
  | startMIDI2 devices => exact .trans (omsLocateDispatch_located s devices).moves (.single .start)
  | stopMIDI => exact .single .stop
  | getPortSendProc portID sendPars upp => exact omsGetPortSendProc_moves portID sendPars upp
  | setPortReceiveRefNum portID ioRefNum => exact omsSetPortReceiveRefNum_moves portID ioRefNum
  | other => exact .refl

/-- The condition on an event: see `OmsMessage.AddFresh`. -/
def OmsEvent.AddFresh (s : Oms) : OmsEvent → Prop
  | .message m => m.AddFresh s
  | _ => True

instance (s : Oms) : ∀ e : OmsEvent, Decidable (e.AddFresh s)
  | .message m => inferInstanceAs (Decidable (m.AddFresh s))
  | .notification _ | .completion .. | .send .. | .appear .. | .removed _ => isTrue trivial

/-- **Every event is a sequence of moves.** -/
theorem omsStep_moves {e : OmsEvent} (hF : F → e.AddFresh s) (h : omsStep s e = some s') :
    OmsMoves F s s' := by
  cases e with
  | message m => exact Option.some.inj h ▸ omsHandleMessage_moves hF
  | notification n => exact Option.some.inj h ▸ omsUsbNotify_moves n
  | completion t i data =>
    simp only [omsStep] at h
    split_ifs at h
    exact Option.some.inj h ▸ omsCompletion_moves t i data
  | send pkt refCon => exact omsTxSend_moves h
  | appear t buf =>
    simp only [omsStep] at h
    split_ifs at h
    exact Option.some.inj h ▸ .single (.appear t buf)
  | removed t =>
    refine Option.some.inj h ▸ (OmsQuiet.setDriver s t ?_ ?_).moves <;> rfl

/-- **The invariant rule**: what every move preserves holds in every run. -/
theorem oms_inv {I : Oms → Prop} (hI : ∀ s s', I s → OmsMove F s s' → I s') {s₀ : Oms}
    (h₀ : I s₀) (h : Reach omsStep (fun s e => F → e.AddFresh s) s₀ s) : I s := by
  apply h.inv h₀
  intro s e s' hs hF hst
  have hmoves := omsStep_moves hF hst
  clear hst
  induction hmoves with
  | refl => exact hs
  | tail _ hm ih => exact hI _ _ ih hm

end

end Usbmidi9
