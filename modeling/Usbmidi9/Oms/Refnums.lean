/-
  USBMIDI9 — which refnum a message is delivered with.

  The shim keeps the refnum of a port in its record, which `omdvInit`,
  `omdvDispose` and a detach zero, and which the receive path creates with -1
  when it meets a cable without one.  `Refnums` is what the messages alone say:
  the refnum that `omdvSetPortReceiveRefNum` gave last to each port since the
  state was last cleared.

  In every run the records agree with it (`RefnumInv`), no message but a read
  completion hands anything to OMS (`Silent`), and a read completion does with
  the refnum of the port (`Heard`).  `deliveries_configured` is the result.
-/
import Usbmidi9.Oms.Backlog
import Usbmidi9.Oms.Isolation

namespace Usbmidi9

/-! ## What the messages say -/

/-- The refnum that was set last for an interface and a cable. -/
abbrev Refnums := ℕ → ℕ → Option Int16

/-- Nothing was set. -/
def noRefnums : Refnums := fun _ _ => none

/-- `omdvSetPortReceiveRefNum`. -/
def Refnums.set (cfg : Refnums) (portID : Option OmsPortID) (ioRefNum : Int16) : Refnums :=
  match portID.bind OmsPortID.port? with
  | none => cfg
  | some (ifaceNo, cable) =>
    Function.update cfg (ifaceNo - 1)
      (Function.update (cfg (ifaceNo - 1)) cable (some ioRefNum))

/-- One event: `omdvInit`, `omdvDispose` and the removal of the bound device
    forget what was set. -/
def Refnums.after (cfg : Refnums) (s : Oms) : OmsEvent → Refnums
  | .message (.init _) | .message .dispose => noRefnums
  | .message (.setPortReceiveRefNum portID ioRefNum) => cfg.set portID ioRefNum
  | .notification (.remove deviceRef) =>
    if s.g.table ≠ none ∧ deviceRef = s.g.deviceRef then noRefnums else cfg
  | _ => cfg

/-- The shim with what its messages said so far. -/
def refnumStep (p : Oms × Refnums) (e : OmsEvent) : Option (Oms × Refnums) :=
  (omsStep p.1 e).map fun s' => (s', p.2.after p.1 e)

/-- The ports have the refnums that were set, and no interface is valid without a
    class driver. -/
structure RefnumInv (cfg : Refnums) (s : Oms) : Prop where
  refnum : ∀ i c, (s.port i c).refnum = (cfg i c).getD (-1)
  unbound : s.g.table = none → ∀ i, (s.g.ifaces i).valid = false

/-- Nothing is handed to OMS. -/
def Silent (s s' : Oms) : Prop :=
  ∃ new, s'.trace = s.trace ++ new ∧ ∀ e ∈ new, e.delivery = none

namespace Silent
variable {s s' s'' : Oms}

theorem of_eq (h : s'.trace = s.trace) : Silent s s' := ⟨[], by rw [h, List.append_nil], nofun⟩

theorem trans (h : Silent s s') (h' : Silent s' s'') : Silent s s'' := by
  obtain ⟨new, hn, he⟩ := h
  obtain ⟨new', hn', he'⟩ := h'
  refine ⟨new ++ new', by rw [hn', hn, List.append_assoc], ?_⟩
  intro e hm
  exact (List.mem_append.1 hm).elim (he e) (he' e)

end Silent

/-! ## A drain -/

/-- A drain of interface `i` keeps the refnums and delivers with them. -/
structure Heard (i : ℕ) (s s' : Oms) : Prop where
  refnum : ∀ j c, (s'.port j c).refnum = (s.port j c).refnum
  trace : ∃ new, s'.trace = s.trace ++ new ∧ ∀ e ∈ new, ∃ (f : RxFrame) (session : ℕ) (pkt : OmsPacket),
    e = .received f.source session pkt (s.port i f.packet.cable).refnum ∧
      0 ≤ (s.port i f.packet.cable).refnum ∧
      pkt.srcIORefNum = (s.port i f.packet.cable).refnum.toUInt16

namespace Heard
variable {i : ℕ} {s s' s'' : Oms}

theorem quiet (hi : s'.g.ifaces = s.g.ifaces) (ht : s'.trace = s.trace) : Heard i s s' :=
  ⟨fun _ _ => by rw [Oms.port, Oms.port, hi], [], by rw [ht, List.append_nil], nofun⟩

theorem trans (h : Heard i s s') (h' : Heard i s' s'') : Heard i s s'' := by
  obtain ⟨new, hn, he⟩ := h.trace
  obtain ⟨new', hn', he'⟩ := h'.trace
  refine ⟨fun j c => (h'.refnum j c).trans (h.refnum j c), new ++ new',
    by rw [hn', hn, List.append_assoc], ?_⟩
  intro e hm
  rcases List.mem_append.1 hm with hm | hm
  · exact he e hm
  · obtain ⟨f, session, pkt, hent, hpos, hsrc⟩ := he' e hm
    rw [h.refnum] at hent hpos hsrc
    exact ⟨f, session, pkt, hent, hpos, hsrc⟩

end Heard

/-- A packet keeps the refnum of its port, created with -1 if there was none. -/
theorem omsRxPortPacket_refnum (p : OmsPort) (cable : ℕ) (bytes : List UInt8) :
    (omsRxPortPacket p cable bytes).1.ioRefNum = p.refnum ∧
      (omsRxPortPacket p cable bytes).1.valid = true := by
  have hopen := p.open_ioRefNum cable
  have hvalid := p.open_valid cable
  unfold omsRxPortPacket
  simp only
  split
  · exact ⟨hopen, hvalid⟩
  · exact ⟨hopen, hvalid⟩

theorem Oms.port_taken (s : Oms) (i c : ℕ) (r : OmsPort × List RxMsg) (j k : ℕ) :
    (s.taken i c r).port j k = if j = i ∧ k = c then r.1 else s.port j k := by
  rw [Oms.port, Oms.ifaces_taken]
  by_cases hj : j = i
  · subst hj
    simp only [if_true, true_and, Function.update_apply]
    rfl
  · simp only [hj, if_false, false_and]
    rfl

/-- **One Event Packet** is delivered with the refnum of the port of its cable. -/
theorem omsRxPacket_heard (i : ℕ) (deliver : Bool) (s : Oms) (f : RxFrame) :
    Heard i s (omsRxPacket i deliver s f.b0 f.b1 f.b2 f.b3) := by
  have hc : ¬omsCables ≤ f.packet.cable := Nat.not_le.2 f.packet.cable_lt
  obtain ⟨hio, hvalid⟩ :=
    omsRxPortPacket_refnum (s.port i f.packet.cable) f.packet.cable f.packet.bytes
  generalize hr : omsRxPortPacket (s.port i f.packet.cable) f.packet.cable f.packet.bytes = r
    at hio hvalid
  have heq : omsRxPacket i deliver s f.b0 f.b1 f.b2 f.b3 =
      if deliver = false ∨ r.1.ioRefNum < 0 then s.taken i f.packet.cable r
      else omsRxDeliver (s.taken i f.packet.cable r) f.source r.1.ioRefNum r.2 := by
    subst hr
    exact if_neg hc
  have hkept : ∀ j c, ((s.taken i f.packet.cable r).port j c).refnum = (s.port j c).refnum := by
    intro j c
    rw [Oms.port_taken]
    split_ifs with hjc
    · obtain ⟨rfl, rfl⟩ := hjc
      rw [OmsPort.refnum_of_valid hvalid, hio]
    · rfl
  have hsilent : Heard i s (s.taken i f.packet.cable r) :=
    ⟨hkept, [], (List.append_nil _).symm, nofun⟩
  rw [heq]
  split_ifs with hdel
  · exact hsilent
  unfold omsRxDeliver
  split_ifs
  · exact hsilent
  refine ⟨hkept, _, rfl, ?_⟩
  intro e he
  obtain ⟨m, -, rfl⟩ := List.mem_map.1 he
  have hpos : ¬(s.port i f.packet.cable).refnum < 0 := hio ▸ fun h => hdel (.inr h)
  exact ⟨f, _, _, by rw [hio], Int16.not_lt.1 hpos, rfl⟩

theorem omsRxPackets_heard (i : ℕ) (deliver : Bool) (s : Oms) (bytes : List RingByte) :
    Heard i s (omsRxPackets i deliver s bytes) := by
  fun_induction omsRxPackets i deliver s bytes with
  | case1 s b0 b1 b2 b3 rest ih => exact (omsRxPacket_heard i deliver s ⟨b0, b1, b2, b3⟩).trans ih
  | case2 s rest => exact .quiet rfl rfl

theorem omsRxChunks_heard (i : ℕ) (deliver : Bool) (s : Oms) (chunks : List (List RingByte)) :
    Heard i s (chunks.foldl (omsRxChunk i deliver) s) := by
  induction chunks generalizing s with
  | nil => exact .quiet rfl rfl
  | cons c chunks ih =>
    have hcount : Heard i s (s.upd fun g =>
        { g with rxPackets := g.rxPackets + UInt32.ofNat (c.length / 4) }) := .quiet rfl rfl
    exact (hcount.trans (omsRxPackets_heard i deliver _ c)).trans (ih _)

/-- **A drain** delivers with the refnums of the ports of its interface. -/
theorem omsRxDrain_heard (i : ℕ) (deliver : Bool) (s : Oms) :
    Heard i s (omsRxDrain i deliver s) := by
  by_cases hd : ∃ t, s.Drains i t
  · obtain ⟨t, hd⟩ := hd
    obtain ⟨chunks, hc⟩ := drainRing_foldl ringSize omsDequeueChunk (omsRxChunk i deliver)
      (um9RingUsed ringSize ((s.drivers t).rings i) + 1) ((s.drivers t).rings i) s
    have hchunks := omsRxChunks_heard i deliver s chunks
    rw [omsRxDrain_eq hd, hc]
    exact hchunks.trans (.quiet rfl rfl)
  · rw [omsRxDrain_skip (not_exists.1 hd)]
    exact .quiet rfl rfl

/-! ## Moves -/

/-- A move after which the ports have the refnums `cfg'`, and which hands nothing
    to OMS. -/
def RefnumMove (cfg cfg' : Refnums) (s s' : Oms) : Prop :=
  RefnumInv cfg s → RefnumInv cfg' s' ∧ Silent s s'

namespace RefnumMove
variable {cfg cfg' cfg'' : Refnums} {s s' s'' : Oms}

theorem refl : RefnumMove cfg cfg s s := fun h => ⟨h, .of_eq rfl⟩

theorem trans (h : RefnumMove cfg cfg' s s') (h' : RefnumMove cfg' cfg'' s' s'') :
    RefnumMove cfg cfg'' s s'' := by
  intro hi
  obtain ⟨hi', hs⟩ := h hi
  obtain ⟨hi'', hs'⟩ := h' hi'
  exact ⟨hi'', hs.trans hs'⟩

theorem quiet (hq : OmsQuiet s s') : RefnumMove cfg cfg s s' := by
  intro h
  refine ⟨⟨?_, ?_⟩, hq.trace⟩
  · intro i c
    rw [Oms.port, hq.ifaces]
    exact h.refnum i c
  · intro ht i
    rw [hq.ifaces]
    exact h.unbound (hq.table ▸ ht) i

/-- Ports that keep their refnums. -/
theorem kept (hr : ∀ i c, (s'.port i c).refnum = (s.port i c).refnum)
    (hv : s'.g.table = none → s.g.table = none ∧
      ∀ i, (s'.g.ifaces i).valid = (s.g.ifaces i).valid)
    (ht : Silent s s') : RefnumMove cfg cfg s s' := by
  intro h
  refine ⟨⟨fun i c => (hr i c).trans (h.refnum i c), ?_⟩, ht⟩
  intro hnone i
  obtain ⟨hs, hvalid⟩ := hv hnone
  rw [hvalid]
  exact h.unbound hs i

theorem setPort {i c : ℕ} {p : OmsPort} (h : p.refnum = (s.port i c).refnum) :
    RefnumMove cfg cfg s (s.setPort i c p) := by
  refine kept ?_ ?_ (.of_eq rfl)
  · intro j k
    by_cases hj : j = i
    · subst hj
      by_cases hk : k = c
      · subst hk
        simpa only [Oms.port, Oms.setPort, Oms.upd, Function.update_self] using h
      · simp only [Oms.port, Oms.setPort, Oms.upd, Function.update_self, Function.update_of_ne hk]
    · simp only [Oms.port, Oms.setPort, Oms.upd, Function.update_of_ne hj]
  · intro ht
    refine ⟨ht, ?_⟩
    intro j
    by_cases hj : j = i
    · subst hj
      simp only [Oms.setPort, Oms.upd, Function.update_self]
    · simp only [Oms.setPort, Oms.upd, Function.update_of_ne hj]

/-- A cleared state. -/
theorem clear {g : OmsGlobals} (hi : g.ifaces = fun _ => .zero) :
    RefnumMove cfg noRefnums s { s with g := g } := by
  intro _
  refine ⟨⟨?_, ?_⟩, .of_eq rfl⟩
  · intro i c
    simp only [Oms.port, hi]
    rfl
  · intro _ i
    simp only [hi, OmsIface.zero]

/-- A drain that does not deliver. -/
theorem discard (s : Oms) (i : ℕ) : RefnumMove cfg cfg s (omsRxDrain i false s) := by
  obtain ⟨ht, -, -, hv, -, -⟩ := omsRxDrain_frame i false s
  have hsilent : Silent s (omsRxDrain i false s) := by
    by_cases hd : ∃ t, s.Drains i t
    · obtain ⟨t, hd⟩ := hd
      obtain ⟨fs, s', r, heq, hdrained⟩ := omsRxDrain_drained hd false
      obtain ⟨new, hnew, hnil, -, -⟩ := hdrained.trace
      rw [heq]
      exact ⟨new, hnew, by simp [hnil rfl]⟩
    · rw [omsRxDrain_skip (not_exists.1 hd)]
      exact .of_eq rfl
  exact kept (omsRxDrain_heard i false s).refnum (fun hn => ⟨ht ▸ hn, hv⟩) hsilent

theorem discardAll (s : Oms) : RefnumMove cfg cfg s (omsRxDrainAll false s) :=
  omsRxDrainAll_inv (I := RefnumMove cfg cfg s) (fun s' i h => h.trans (discard s' i)) .refl

end RefnumMove

theorem OmsPort.refnum_reset (p : OmsPort) (c : ℕ) : (p.reset c).refnum = p.refnum := rfl

section
variable {cfg : Refnums} {s s' : Oms}

/-- A class driver is bound when no interface is valid, so that the drain of
    `oms_bind_dispatch` finds nothing. -/
theorem attached_refnums (ht : s.g.table = none) (t : ℕ) (deviceRef : ℤ) (deliver : Bool) :
    RefnumMove cfg cfg s (omsRxDrainAll deliver (s.attached t deviceRef)) := by
  intro h
  obtain ⟨hkept, -⟩ := attached_kept s t deviceRef
  have hidle : ∀ i, ((s.attached t deviceRef).g.ifaces i).valid = false := by
    intro i
    rw [hkept.valid]
    exact h.unbound ht i
  have hreset : RefnumMove cfg cfg s (omsResetPorts (s.bound t deviceRef)) := by
    refine RefnumMove.kept ?_ ?_ (.of_eq rfl)
    · intro i c
      show (if _ then _ else _ : OmsPort).refnum = _
      split_ifs
      · exact OmsPort.refnum_reset _ c
      · rfl
    · intro hn
      exact absurd hn (by simp [omsResetPorts, Oms.mapPorts, Oms.bound, Oms.upd])
  rw [omsRxDrainAll_idle hidle]
  exact hreset.trans (.quiet (omsRegisterCallbacks_quiet _ t)) h

theorem omsBindDispatch_refnums (ht : s.g.table = none) (deviceRef : ℤ) (sym : SymbolAnswer) :
    RefnumMove cfg cfg s (omsBindDispatch s deviceRef sym).1 := by
  rw [omsBindDispatch_eq]
  rcases sym.bindable s.drivers with _ | t
  · exact .quiet (locateFailed_quiet s)
  · exact attached_refnums ht t deviceRef _

theorem omsLocateDispatch_refnums (s : Oms) (devices : List (ℤ × SymbolAnswer)) :
    RefnumMove cfg cfg s (omsLocateDispatch s devices).1 := by
  by_cases ht : s.g.table = none
  swap
  · rw [omsLocateDispatch, if_pos ht]
    exact .refl
  obtain ⟨n, hcases⟩ := omsLocateDispatch_cases ht devices
  have hcount : RefnumMove cfg cfg s (s.withFailures n) := .quiet (.upd s rfl rfl rfl)
  rcases hcases with ⟨-, heq⟩ | ⟨t, deviceRef, -, heq⟩
  · rw [heq]
    exact hcount
  · rw [heq]
    have htable : (s.withFailures n).g.table = none := ht
    exact hcount.trans (attached_refnums htable t deviceRef _)

theorem omsAttachDevice_refnums (s : Oms) (deviceRef : ℤ) (conn : Option SymbolAnswer) :
    RefnumMove cfg cfg s (omsAttachDevice s deviceRef conn).1 := by
  unfold omsAttachDevice
  split_ifs with ht
  · exact .refl
  split
  · exact .refl
  · exact omsBindDispatch_refnums (not_not.1 ht) deviceRef _

theorem omsUsbNotify_refnums (s : Oms) (n : DeviceNotification) :
    RefnumMove cfg (cfg.after s (.notification n)) s (omsUsbNotify s n) := by
  cases n with
  | add deviceRef conn => exact omsAttachDevice_refnums s deviceRef conn
  | remove deviceRef =>
    simp only [omsUsbNotify, Refnums.after]
    split_ifs
    · exact .clear rfl
    · exact .refl
  | other => exact .refl

/-- With nothing set, notifications set nothing. -/
theorem omsNotifications_refnums (s : Oms) (l : List DeviceNotification) :
    RefnumMove noRefnums noRefnums s (l.foldl omsUsbNotify s) := by
  induction l generalizing s with
  | nil => exact .refl
  | cons n l ih =>
    have hn : RefnumMove noRefnums _ s (omsUsbNotify s n) := omsUsbNotify_refnums s n
    have hnone : noRefnums.after s (.notification n) = noRefnums := by
      cases n with
      | remove deviceRef => exact ite_self _
      | _ => rfl
    rw [hnone] at hn
    exact hn.trans (ih _)

theorem omsInit_refnums (s : Oms) (a : InitAnswers) :
    RefnumMove cfg noRefnums s (omsInit s a) := by
  have hclear : RefnumMove cfg noRefnums s (omsRelease s).cleared :=
    .trans (.quiet (omsRelease_quiet s)) (.clear (g := .zero) rfl)
  have hinstall := (hclear.trans (.quiet (omsNewSendUpp_quiet _ a.upp))).trans
    ((omsNotifications_refnums _ a.installed).trans (.quiet (installed_quiet _ a.token)))
  exact hinstall.trans ((omsLocateDispatch_refnums _ a.devices).trans
    (.quiet (.upd _ (f := fun g => { g with rxRoutine := a.routine }) rfl rfl rfl)))

theorem omsDispose_refnums (s : Oms) : RefnumMove cfg noRefnums s (omsDispose s) := by
  unfold omsDispose
  simp only
  have hrelease : ∀ s', RefnumMove cfg cfg s s' → RefnumMove cfg noRefnums s (omsRelease s').cleared :=
    fun s' h => (h.trans (.quiet (omsRelease_quiet s'))).trans (.clear (g := .zero) rfl)
  refine hrelease _ ?_
  split
  · split_ifs
    · exact .quiet (OmsQuiet.foldl (fun s i => .setHook s _ i false) _ s)
    · exact .refl
  · exact .refl

theorem omsValidate_refnums {t : ℕ} (ht : s.g.table = some t) (i : ℕ) :
    RefnumMove cfg cfg s (omsValidate s i) := by
  refine .kept ?_ (fun hn => absurd (ht.symm.trans hn) (by simp)) (.of_eq rfl)
  intro j c
  by_cases hj : j = i
  · subst hj
    simp only [Oms.port, omsValidate, Oms.upd, Function.update_self]
  · simp only [Oms.port, omsValidate, Oms.upd, Function.update_of_ne hj]

theorem omsEnumerate_refnums {t : ℕ} (ht : s.g.table = some t) :
    RefnumMove cfg cfg s (omsEnumerate s t) := by
  have hquiet : OmsQuiet s (s.upd fun g =>
      { g with nInterfaces := min (s.drivers t).count omsMaxInterfaces }) := .upd s rfl rfl rfl
  have hfold : ∀ (l : List ℕ) (s : Oms), s.g.table = some t →
      RefnumMove cfg cfg s (l.foldl omsValidate s) := by
    intro l
    induction l with
    | nil => exact fun _ _ => .refl
    | cons i l ih =>
      intro s hs
      have hrest : RefnumMove cfg cfg (omsValidate s i) (l.foldl omsValidate (omsValidate s i)) :=
        ih _ hs
      exact .trans (omsValidate_refnums hs i) hrest
  exact .trans (.quiet hquiet) (hfold _ _ ht)

theorem omsAddDevices_refnums (s : Oms) (hasProc : Bool) (devices : List (ℤ × SymbolAnswer)) :
    RefnumMove cfg cfg s (omsAddDevices s hasProc devices) := by
  cases hasProc with
  | false => exact .refl
  | true =>
    refine .trans (omsLocateDispatch_refnums s devices) ?_
    simp only [omsAddDevices, Bool.true_eq_false, if_false]
    rcases ht : (omsLocateDispatch s devices).1.g.table with _ | t
    · exact .refl
    have hquiet := omsRegisterCallbacks_quiet (omsLocateDispatch s devices).1 t
    exact .trans (.quiet hquiet) (omsEnumerate_refnums (hquiet.table.trans ht))

theorem omsStartMidi2_refnums (s : Oms) (devices : List (ℤ × SymbolAnswer)) :
    RefnumMove cfg cfg s (omsStartMidi2 s devices) := by
  refine .trans (omsLocateDispatch_refnums s devices) (.trans (.discardAll _) ?_)
  refine .kept ?_ (fun hn => ⟨hn, fun _ => rfl⟩) (.of_eq rfl)
  intro i c
  show (if _ then _ else _ : OmsPort).refnum = _
  split_ifs
  · exact OmsPort.refnum_reset _ c
  · rfl

theorem omsSetPortReceiveRefNum_refnums (s : Oms) (portID : Option OmsPortID) (ioRefNum : Int16) :
    RefnumMove cfg (cfg.set portID ioRefNum) s (omsSetPortReceiveRefNum s portID ioRefNum) := by
  unfold omsSetPortReceiveRefNum Refnums.set
  rcases portID.bind OmsPortID.port? with _ | ⟨ifaceNo, cable⟩
  · exact .refl
  intro h
  refine ⟨⟨?_, ?_⟩, .of_eq rfl⟩
  · intro i c
    by_cases hi : i = ifaceNo - 1
    · subst hi
      by_cases hc : c = cable
      · subst hc
        simp only [Oms.port, Oms.setPort, Oms.upd, Function.update_self, OmsPort.refnum, if_true,
          Option.getD_some]
      · have hrefnum := h.refnum (ifaceNo - 1) c
        simpa only [Oms.port, Oms.setPort, Oms.upd, Function.update_self,
          Function.update_of_ne hc] using hrefnum
    · have hrefnum := h.refnum i c
      simpa only [Oms.port, Oms.setPort, Oms.upd, Function.update_of_ne hi] using hrefnum
  · intro ht i
    have hvalid := h.unbound ht i
    by_cases hi : i = ifaceNo - 1
    · subst hi
      simpa only [Oms.setPort, Oms.upd, Function.update_self] using hvalid
    · simpa only [Oms.setPort, Oms.upd, Function.update_of_ne hi] using hvalid

theorem omsTxChunk_refnums {ifaceNo cable mode : ℕ} {pkt : OmsMidiPacket}
    (h : omsTxChunk s ifaceNo cable mode pkt = some s') : RefnumMove cfg cfg s s' := by
  obtain ⟨r, hr, rfl⟩ := Option.map_eq_some_iff.1 h
  have hsame := omsTxSysexChunk_port hr
  have hrefnum : r.port.refnum = (s.port (ifaceNo - 1) cable).refnum := by
    rw [OmsPort.refnum, OmsPort.refnum, hsame.valid, hsame.ioRefNum]
  exact .trans (.setPort hrefnum) (.quiet ((OmsQuiet.upd _ (f := fun g =>
    { g with txMalformed := g.txMalformed + r.malformed }) rfl rfl rfl).trans
      (omsTxEmit_quiet _ _ _)))

theorem omsTxMessage_refnums (ifaceNo cable : ℕ) (pkt : OmsMidiPacket) :
    RefnumMove cfg cfg s (omsTxMessage s ifaceNo cable pkt) := by
  unfold omsTxMessage
  split_ifs
  · exact .quiet (malformed_quiet s)
  have hport : ∀ tx, RefnumMove cfg cfg s (s.setPort (ifaceNo - 1) cable
      { s.port (ifaceNo - 1) cable with tx := tx }) := fun tx => .setPort rfl
  simp only
  split_ifs
  · exact .trans (hport _) (.quiet (malformed_quiet _))
  · exact .trans (hport _) (.quiet (omsTxEmit_quiet _ _ _))

theorem omsTxSend_refnums {pkt : Option OmsMidiPacket} {refCon : ℕ}
    (h : omsTxSend s pkt refCon = some s') : RefnumMove cfg cfg s s' := by
  unfold omsTxSend at h
  split at h
  · exact Option.some.inj h ▸ .quiet (malformed_quiet s)
  simp only at h
  split_ifs at h
  · exact Option.some.inj h ▸ .quiet (malformed_quiet s)
  · exact omsTxChunk_refnums h
  · exact Option.some.inj h ▸ omsTxMessage_refnums _ _ _
  · exact omsTxChunk_refnums h

theorem omsHandleMessage_refnums (s : Oms) (m : OmsMessage) :
    RefnumMove cfg (cfg.after s (.message m)) s (omsHandleMessage s m) := by
  cases m with
  | init answers => exact omsInit_refnums s answers
  | dispose => exact omsDispose_refnums s
  | addDevices hasProc devices => exact omsAddDevices_refnums s hasProc devices
  | startMIDI => exact .refl
  | startMIDI2 devices => exact omsStartMidi2_refnums s devices
  | stopMIDI => exact .kept (fun _ _ => rfl) (fun hn => ⟨hn, fun _ => rfl⟩) (.of_eq rfl)
  | getPortSendProc portID sendPars upp =>
    show RefnumMove cfg cfg s (omsGetPortSendProc s portID sendPars upp).1
    unfold omsGetPortSendProc
    split
    · split
      · exact .refl
      · simp only
        split_ifs <;> split <;> first | exact .refl | exact .quiet (omsNewSendUpp_quiet s upp)
    · exact .refl
  | setPortReceiveRefNum portID ioRefNum => exact omsSetPortReceiveRefNum_refnums s portID ioRefNum
  | other => exact .refl

end

/-! ## Completions -/

/-- The bytes of a transfer are stored. -/
def Oms.stored (s : Oms) (t i : ℕ) (data : List UInt8) : Oms :=
  s.setRing t i (um9RingEnqueue ringSize ((s.drivers t).rings i) (s.stamp data)).1

/-- A message of one of the packets in the ring of interface `i` of the bound
    driver, with the refnum that was set for this interface and the packet's
    cable. -/
def OmsEntry.Configured (cfg : Refnums) (s : Oms) (i : ℕ) : OmsEntry → Prop
  | .received source _ pkt ioRefNum => ∃ t, s.g.table = some t ∧
      ∃ f ∈ frames (((s.drivers t).rings i).queue ringSize), source = f.source ∧
        cfg i f.packet.cable = some ioRefNum ∧ 0 ≤ ioRefNum ∧
        pkt.srcIORefNum = ioRefNum.toUInt16
  | _ => False

section
variable {cfg : Refnums} {s : Oms}

/-- A port that delivers was given its refnum. -/
theorem RefnumInv.set (h : RefnumInv cfg s) {i c : ℕ} (hpos : 0 ≤ (s.port i c).refnum) :
    cfg i c = some (s.port i c).refnum := by
  rw [h.refnum] at hpos ⊢
  cases hc : cfg i c with
  | none =>
    rw [hc] at hpos
    exact absurd hpos (by decide)
  | some r => rfl

theorem RefnumInv.drain (h : RefnumInv cfg s) (i : ℕ) (deliver : Bool) :
    RefnumInv cfg (omsRxDrain i deliver s) := by
  obtain ⟨ht, -, -, hv, -, -⟩ := omsRxDrain_frame i deliver s
  refine ⟨fun j c => ((omsRxDrain_heard i deliver s).refnum j c).trans (h.refnum j c), ?_⟩
  intro hn j
  rw [hv]
  exact h.unbound (ht ▸ hn) j

/-- **A drain while MIDI is running** delivers what is configured. -/
theorem omsRxDrain_configured (h : RefnumInv cfg s)
    (hs : RingsSound s) (i : ℕ) (deliver : Bool) :
    ∃ new, (omsRxDrain i deliver s).trace = s.trace ++ new ∧ (deliver = false → new = []) ∧
      ∀ e ∈ new, e.Configured cfg s i := by
  by_cases hd : ∃ t, s.Drains i t
  swap
  · rw [omsRxDrain_skip (not_exists.1 hd)]
    exact ⟨[], (List.append_nil _).symm, fun _ => rfl, nofun⟩
  obtain ⟨t, hd⟩ := hd
  obtain ⟨fs, s', r, heq, hdrained, -, -, -, rfl⟩ := omsRxDrain_spec hd (hs t i) deliver
  obtain ⟨new, hnew, hsilent, hfrom, -⟩ := hdrained.trace
  obtain ⟨new', hnew', hheard⟩ := (omsRxDrain_heard i deliver s).trace
  have htrace : (omsRxDrain i deliver s).trace = s.trace ++ new := heq ▸ hnew
  obtain rfl : new = new' := List.append_cancel_left (htrace.symm.trans hnew')
  refine ⟨new, htrace, hsilent, ?_⟩
  intro e he
  obtain ⟨f, session, pkt, rfl, hpos, hsrc⟩ := hheard e he
  obtain ⟨-, f', hf', hsource⟩ := hfrom _ he
  obtain rfl : f = f' := by
    cases f
    cases f'
    simp only [RxFrame.source, List.cons.injEq, and_true] at hsource
    simp only [RxFrame.mk.injEq]
    exact hsource
  exact ⟨t, hd.table, f, hf', rfl, h.set hpos, hpos, hsrc⟩

theorem RefnumInv.stored (h : RefnumInv cfg s) (t i : ℕ) (data : List UInt8) :
    RefnumInv cfg (s.stored t i data) := ⟨h.refnum, h.unbound⟩

/-- **A read completion**: nothing is handed to OMS unless MIDI is running. -/
theorem omsCompletion_configured (h : RefnumInv cfg s)
    (hs : RingsSound s) (t i : ℕ) (data : List UInt8) :
    RefnumInv cfg (omsCompletion s t i data) ∧
      ∃ new, (omsCompletion s t i data).trace = s.trace ++ new ∧
        ∀ e ∈ new, s.g.midiStarted = true ∧ (omsCompletion s t i data).g.midiStarted = true ∧
          e.Configured cfg (s.stored t i data) i := by
  have hnone : ∀ {s' : Oms}, s'.trace = s.trace → ∃ new, s'.trace = s.trace ++ new ∧
      ∀ e ∈ new, s.g.midiStarted = true ∧ s'.g.midiStarted = true ∧
        e.Configured cfg (s.stored t i data) i :=
    fun ht => ⟨[], by rw [ht, List.append_nil], nofun⟩
  unfold omsCompletion
  simp only
  split_ifs
  · exact ⟨h, hnone rfl⟩
  swap
  · exact ⟨h.stored t i data, hnone rfl⟩
  -- the push hook: what it counts does not matter to the drain
  have hquiet : OmsQuiet (s.stored t i data)
      ((s.stored t i data).upd fun g => { g with events := g.events + 1 }) := .upd _ rfl rfl rfl
  have hinv := (RefnumMove.quiet hquiet (h.stored t i data)).1
  have hsound : RingsSound (s.stored t i data) := hs.store t i _
  obtain ⟨new, hnew, hsilent, hconf⟩ :=
    omsRxDrain_configured hinv hsound i s.g.midiStarted
  have hstarted : (omsRxEvent i (s.stored t i data)).g.midiStarted = s.g.midiStarted :=
    (omsRxDrain_frame i _ _).2.1
  refine ⟨hinv.drain i s.g.midiStarted, new, hnew, ?_⟩
  intro e he
  cases hm : s.g.midiStarted with
  | false =>
    rw [hsilent hm] at he
    exact absurd he List.not_mem_nil
  | true => exact ⟨rfl, hstarted.trans hm, hconf e he⟩

end

/-! ## Runs -/

/-- **One event** keeps the records in step with the messages, and what it hands
    to OMS comes from a read completion while MIDI is running. -/
theorem omsStep_configured {cfg : Refnums} {s s' : Oms} {e : OmsEvent} (h : RefnumInv cfg s)
    (hs : RingsSound s) (he : omsStep s e = some s') :
    RefnumInv (cfg.after s e) s' ∧
      ∃ new, s'.trace = s.trace ++ new ∧ ∀ entry ∈ new, entry.delivery ≠ none →
        ∃ t i data, e = .completion t i data ∧
          s.g.midiStarted = true ∧ s'.g.midiStarted = true ∧
          entry.Configured cfg (s.stored t i data) i := by
  have hmove : RefnumMove cfg (cfg.after s e) s s' → RefnumInv (cfg.after s e) s' ∧
      ∃ new, s'.trace = s.trace ++ new ∧ ∀ entry ∈ new, entry.delivery ≠ none →
        ∃ t i data, e = .completion t i data ∧
          s.g.midiStarted = true ∧ s'.g.midiStarted = true ∧
          entry.Configured cfg (s.stored t i data) i := by
    intro hm
    obtain ⟨hinv, new, hnew, hsilent⟩ := hm h
    exact ⟨hinv, new, hnew, fun entry hmem hne => absurd (hsilent entry hmem) hne⟩
  cases e with
  | message m => exact hmove (Option.some.inj he ▸ omsHandleMessage_refnums s m)
  | notification n => exact hmove (Option.some.inj he ▸ omsUsbNotify_refnums s n)
  | completion t i data =>
    simp only [omsStep] at he
    split_ifs at he
    obtain rfl := Option.some.inj he
    obtain ⟨hinv, new, hnew, hconf⟩ := omsCompletion_configured h hs t i data
    refine ⟨hinv, new, hnew, ?_⟩
    intro entry hmem _
    exact ⟨t, i, data, rfl, hconf entry hmem⟩
  | send pkt refCon => exact hmove (omsTxSend_refnums he)
  | appear t buf =>
    simp only [omsStep] at he
    split_ifs at he
    obtain rfl := Option.some.inj he
    exact hmove (.kept (fun _ _ => rfl) (fun hn => ⟨hn, fun _ => rfl⟩) (.of_eq rfl))
  | removed t =>
    obtain rfl := Option.some.inj he
    exact hmove (.quiet (.setDriver s t rfl rfl))

/-- In every run the records are in step with the messages. -/
theorem RefnumInv.reach {drivers : ℕ → ClassDriver} (hdrivers : ∀ t, (drivers t).Fresh)
    {p : Oms × Refnums}
    (h : Reach refnumStep (fun _ _ => True) (.boot drivers, noRefnums) p) :
    RefnumInv p.2 p.1 ∧ RingsSound p.1 := by
  have hboot : RefnumInv noRefnums (.boot drivers) := ⟨fun _ _ => rfl, fun _ _ => rfl⟩
  refine h.inv (I := fun p => RefnumInv p.2 p.1 ∧ RingsSound p.1) ⟨hboot, .boot hdrivers⟩ ?_
  intro p e p' hp _ hstep
  obtain ⟨s', hs', rfl⟩ := Option.map_eq_some_iff.1 hstep
  refine ⟨(omsStep_configured hp.1 hp.2 hs').1, ?_⟩
  have hmoves := omsStep_moves (F := False) False.elim hs'
  exact RingsSound.moves hp.2 hmoves

/-- **Every delivery is configured.**  Whatever the order of messages, device
    notifications, transfers and replugs: when an event hands something to OMS,
    the event is a read completion of an interface, MIDI is running, and the
    message comes from a packet in the ring of that interface of the bound class
    driver.  Its refnum, in the packet and beside it, is the one that
    `omdvSetPortReceiveRefNum` gave last to exactly this interface and the
    packet's cable since the latest `omdvInit`, `omdvDispose` or detach, and it is
    not negative. -/
theorem deliveries_configured {drivers : ℕ → ClassDriver} (hdrivers : ∀ t, (drivers t).Fresh)
    {s : Oms} {cfg : Refnums}
    (h : Reach refnumStep (fun _ _ => True) (.boot drivers, noRefnums) (s, cfg))
    {e : OmsEvent} {s' : Oms} (he : omsStep s e = some s') :
    ∃ new, s'.trace = s.trace ++ new ∧
      ∀ source session pkt ioRefNum, .received source session pkt ioRefNum ∈ new →
        ∃ t i data, e = .completion t i data ∧
          s.g.midiStarted = true ∧ s'.g.midiStarted = true ∧
          ∃ bound, s.g.table = some bound ∧
          ∃ f ∈ frames ((((s.stored t i data).drivers bound).rings i).queue ringSize),
            source = f.source ∧ cfg i f.packet.cable = some ioRefNum ∧ 0 ≤ ioRefNum ∧
              pkt.srcIORefNum = ioRefNum.toUInt16 := by
  obtain ⟨hinv, hsound⟩ := RefnumInv.reach hdrivers h
  obtain ⟨-, new, hnew, hconf⟩ := omsStep_configured hinv hsound he
  refine ⟨new, hnew, ?_⟩
  intro source session pkt ioRefNum hmem
  obtain ⟨t, i, data, rfl, hm, hm', hc⟩ := hconf _ hmem (by simp [OmsEntry.delivery])
  exact ⟨t, i, data, rfl, hm, hm', hc⟩

/-- The refnum 5 was set for cable 0 of the first interface before a Note On of
    this cable is delivered. -/
theorem deliveries_configured_note :
    ∃ s cfg, runEvents refnumStep (.boot fun _ => .single, noRefnums) (configuredEvents.take 5) =
        some (s, cfg) ∧
      ∃ s', omsStep s (.completion 0 0 [0x09, 0x90, 0x3E, 0x40]) = some s' ∧
        s'.trace = s.trace ++
          [.received (noteOnBytes 0x3E (some 1)) 1 ⟨0, 3, 5, 0, [0x90, 0x3E, 0x40, 0]⟩ 5] ∧
        cfg 0 0 = some 5 := by
  obtain ⟨⟨s, cfg⟩, hrun⟩ : ∃ p, runEvents refnumStep (.boot fun _ => .single, noRefnums)
      (configuredEvents.take 5) = some p := ⟨_, rfl⟩
  obtain rfl : s = afterEvents (configuredEvents.take 5) :=
    congrArg Prod.fst (Option.some.inj hrun).symm
  have hlast : omsStep (afterEvents (configuredEvents.take 5))
      (.completion 0 0 [0x09, 0x90, 0x3E, 0x40]) = some (afterEvents configuredEvents) := rfl
  have htrace : (afterEvents configuredEvents).trace =
      (afterEvents (configuredEvents.take 5)).trace ++
        [.received (noteOnBytes 0x3E (some 1)) 1 ⟨0, 3, 5, 0, [0x90, 0x3E, 0x40, 0]⟩ 5] := by
    decide +kernel
  refine ⟨_, cfg, hrun, _, hlast, htrace, ?_⟩
  have hreach : Reach refnumStep (fun _ _ => True) (.boot fun _ => .single, noRefnums) _ :=
    .of_run runOk_true hrun
  obtain ⟨new, hnew, hall⟩ :=
    deliveries_configured (fun _ => ClassDriver.single_fresh) hreach hlast
  obtain rfl := List.append_cancel_left (htrace.symm.trans hnew)
  obtain ⟨t, i, data, he, -, -, bound, -, ⟨b0, b1, b2, b3⟩, -, hsource, hcfg, -⟩ :=
    hall _ _ _ _ (List.mem_singleton_self _)
  simp only [OmsEvent.completion.injEq] at he
  simp only [noteOnBytes, RxFrame.source, List.cons.injEq] at hsource
  obtain ⟨rfl, -⟩ := hsource
  obtain ⟨-, rfl, -⟩ := he
  have hcable : (RxFrame.mk ⟨0x09, some 1⟩ b1 b2 b3).packet.cable = 0 := by
    simp only [RxFrame.packet, EventPacket.cable]
    decide
  rw [hcable] at hcfg
  exact hcfg

end Usbmidi9
