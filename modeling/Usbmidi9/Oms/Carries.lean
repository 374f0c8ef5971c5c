/-
  USBMIDI9 — what happens to the carries of the ports outside the send hook.

  No message, notification or receive event adds to a carry: each port keeps its own, or it
  is dropped (`CarriesMoved`), by a reset of the streams or because the whole state is
  cleared.
-/
import Usbmidi9.Oms.Frames
import Usbmidi9.Oms.Rechunk
import Usbmidi9.Oms.Start

namespace Usbmidi9

/-- The carry of a port is kept or dropped. -/
inductive OmsPort.CarryMoved (p p' : OmsPort) : Prop
  | kept : p'.txCarryLen = p.txCarryLen → p'.txCarry = p.txCarry → CarryMoved p p'
  | dropped : p'.txCarryLen = 0 → (p.txCarry.length = 3 → p'.txCarry.length = 3) → CarryMoved p p'

namespace OmsPort.CarryMoved
variable {p p' p'' : OmsPort}

theorem refl (p : OmsPort) : CarryMoved p p := .kept rfl rfl

theorem trans (h : CarryMoved p p') (h' : CarryMoved p' p'') : CarryMoved p p'' := by
  cases h' with
  | kept hlen hcarry => cases h with
    | kept hlen₁ hcarry₁ => exact .kept (hlen.trans hlen₁) (hcarry.trans hcarry₁)
    | dropped hlen₁ hsize₁ => exact .dropped (hlen.trans hlen₁) (hcarry ▸ hsize₁)
  | dropped hlen hsize => cases h with
    | kept _ hcarry₁ => exact .dropped hlen (hcarry₁ ▸ hsize)
    | dropped _ hsize₁ => exact .dropped hlen fun h => hsize (hsize₁ h)

/-- A reset. -/
theorem reset (p : OmsPort) (c : ℕ) : CarryMoved p (p.reset c) := .dropped rfl id

/-- The state is cleared. -/
theorem zero (p : OmsPort) : CarryMoved p .zero := .dropped rfl fun _ => rfl

end OmsPort.CarryMoved

theorem omsRxPortPacket_txCarry (p : OmsPort) (cable : ℕ) (bytes : List UInt8) :
    (omsRxPortPacket p cable bytes).1.txCarry = p.txCarry := by
  have hcarry : (p.open_ cable).txCarry = p.txCarry := by
    unfold OmsPort.open_
    split_ifs <;> rfl
  unfold omsRxPortPacket
  simp only
  split
  · exact hcarry
  · exact hcarry

theorem rxPort_txCarry (deliver : Bool) (c : ℕ) (p : OmsPort) (fs : List RxFrame) :
    ((rxPort deliver c).final p fs).txCarry = p.txCarry := by
  induction fs generalizing p with
  | nil => rfl
  | cons f fs ih => exact (ih _).trans (omsRxPortPacket_txCarry p c f.packet.bytes)

/-- Every port keeps its carry or drops it. -/
def CarriesMoved (s s' : Oms) : Prop := ∀ i c, (s.port i c).CarryMoved (s'.port i c)

namespace CarriesMoved
variable {s s' s'' : Oms}

theorem trans (h : CarriesMoved s s') (h' : CarriesMoved s' s'') : CarriesMoved s s'' :=
  fun i c => (h i c).trans (h' i c)

theorem quiet (h : s'.g.ifaces = s.g.ifaces) : CarriesMoved s s' := by
  intro i c
  rw [Oms.port, Oms.port, h]
  exact .refl _

theorem mapPorts (s : Oms) {f : OmsIface → ℕ → OmsPort → OmsPort}
    (hf : ∀ iface c (p : OmsPort), p.CarryMoved (f iface c p)) : CarriesMoved s (s.mapPorts f) :=
  fun _ c => hf _ c _

/-- A port is stored. -/
theorem setPort (s : Oms) {i c : ℕ} {p : OmsPort} (h : (s.port i c).CarryMoved p) :
    CarriesMoved s (s.setPort i c p) := by
  obtain ⟨hself, hothers⟩ := s.port_setPort i c p
  intro j k
  by_cases hjk : (j, k) = (i, c)
  · obtain ⟨rfl, rfl⟩ := Prod.mk.inj hjk
    rw [hself]
    exact h
  · rw [hothers j k hjk]
    exact .refl _

theorem cleared (s s' : Oms) : CarriesMoved s s'.cleared := fun _ _ => .zero _

theorem drain (i : ℕ) (deliver : Bool) (s : Oms) : CarriesMoved s (omsRxDrain i deliver s) := by
  by_cases h : ∃ t, s.Drains i t
  swap
  · rw [omsRxDrain_skip (not_exists.1 h)]
    exact quiet rfl
  obtain ⟨t, ht⟩ := h
  obtain ⟨fs, s', r, heq, hd⟩ := omsRxDrain_drained ht deliver
  rw [heq]
  intro j c
  show (s.port j c).CarryMoved ((s'.g.ifaces j).ports c)
  by_cases hj : j = i
  · subst hj
    have hport : (s'.g.ifaces j).ports c = (rxPort deliver c).final (s.port j c) (onCable c fs) := by
      rw [hd.ports]
      exact (Mealy.demux_out c _ fs).2
    rw [hport]
    exact .kept (rxPort_carry deliver c _ _).1 (rxPort_txCarry deliver c _ _)
  · rw [hd.others j hj]
    exact .refl _

theorem frame : OmsFrame CarriesMoved where
  refl _ := quiet rfl
  trans := trans
  drain := drain
  locateFailed _ := quiet rfl
  bound _ _ _ := quiet rfl
  resetPorts s := mapPorts s fun _ c p => by
    split_ifs
    · exact .reset p c
    · exact .refl p
  setHook _ _ _ _ := quiet rfl
  registered _ _ := quiet rfl
  detach _ := fun _ _ => .zero _
  enumerated _ _ := quiet rfl
  validate s i := by
    intro j c
    have hport : (omsValidate s i).port j c = s.port j c := by
      by_cases hj : j = i
      · subst hj
        simp only [Oms.port, omsValidate, Oms.upd, Function.update_self]
      · simp only [Oms.port, omsValidate, Oms.upd, Function.update_of_ne hj]
    rw [hport]
    exact .refl _
  started s := mapPorts s (f := fun iface c p => if iface.valid ∧ p.valid then p.reset c else p)
    fun _ c p => by
      split_ifs
      · exact .reset p c
      · exact .refl p

/-- A conventional message. -/
theorem message (s : Oms) (ifaceNo cable : ℕ) (pkt : OmsMidiPacket) :
    CarriesMoved s (omsTxMessage s ifaceNo cable pkt) := by
  obtain ⟨p, ps, hsent, hlen, hdata⟩ := omsTxMessage_sent s ifaceNo cable pkt
  exact hsent.ports .refl (.kept hlen hdata)

theorem completion (s : Oms) (t i : ℕ) (data : List UInt8) :
    CarriesMoved s (omsCompletion s t i data) := by
  unfold omsCompletion
  simp only
  split_ifs
  · exact quiet rfl
  · have hstore : ∀ r, CarriesMoved s
        ((s.setRing t i r).upd fun g => { g with events := g.events + 1 }) := fun _ => quiet rfl
    exact (hstore _).trans (drain i _ _)
  · exact quiet rfl

theorem handleMessage (s : Oms) (m : OmsMessage) : CarriesMoved s (omsHandleMessage s m) := by
  cases m with
  | init answers =>
    have hnew : CarriesMoved s (omsNewSendUpp (omsRelease s).cleared answers.upp) :=
      (cleared s (omsRelease s)).trans (quiet rfl)
    have hnotified := hnew.trans (frame.foldl frame.usbNotify answers.installed _)
    have hinstalled := hnotified.trans (quiet (installed_quiet _ answers.token).ifaces)
    have hlocated := hinstalled.trans (frame.locateDispatch _ answers.devices)
    exact hlocated.trans (quiet rfl)
  | dispose => exact cleared s _
  | addDevices hasProc devices => exact frame.addDevices s hasProc devices
  | startMIDI => exact frame.refl s
  | startMIDI2 devices => exact frame.startMidi2 s devices
  | stopMIDI => exact quiet rfl
  | getPortSendProc portID sendPars upp =>
    have hifaces : (omsGetPortSendProc s portID sendPars upp).1.g.ifaces = s.g.ifaces := by
      unfold omsGetPortSendProc
      split
      · split
        · rfl
        · simp only
          split_ifs <;> split <;> rfl
      · rfl
    exact quiet hifaces
  | setPortReceiveRefNum portID ioRefNum =>
    simp only [omsHandleMessage, omsSetPortReceiveRefNum]
    split
    · exact frame.refl s
    · exact setPort s (.kept rfl rfl)
  | other => exact frame.refl s

/-- **Events other than calls of the send hook.** -/
theorem step {e : OmsEvent} (he : ∀ pkt refCon, e ≠ .send pkt refCon)
    (h : omsStep s e = some s') : CarriesMoved s s' := by
  cases e with
  | message m => exact Option.some.inj h ▸ handleMessage s m
  | notification n => exact Option.some.inj h ▸ frame.usbNotify s n
  | completion t i data =>
    simp only [omsStep] at h
    split_ifs at h
    exact Option.some.inj h ▸ completion s t i data
  | send pkt refCon => exact absurd rfl (he pkt refCon)
  | appear t buf =>
    simp only [omsStep] at h
    split_ifs at h
    exact Option.some.inj h ▸ quiet rfl
  | removed t => exact Option.some.inj h ▸ quiet rfl

end CarriesMoved

end Usbmidi9
