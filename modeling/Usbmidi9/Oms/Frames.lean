/-
  USBMIDI9 — what drains, lookups and notifications of the shim leave alone.

  `OmsFrame R` are the relations between the state before and after that hold of every
  small step of these functions.  Then they hold of the functions themselves: of a
  binding, a lookup, a notification, `omdvAddDevices` and `omdvStartMIDI2`.
-/
import Usbmidi9.Oms.Moves

namespace Usbmidi9

/-- A relation that every small step of the receive path and of a lookup satisfies. -/
structure OmsFrame (R : Oms → Oms → Prop) : Prop where
  refl : ∀ s, R s s
  trans : ∀ {s s' s''}, R s s' → R s' s'' → R s s''
  drain : ∀ i deliver s, R s (omsRxDrain i deliver s)
  locateFailed : ∀ s : Oms, R s s.locateFailed
  bound : ∀ (s : Oms) t deviceRef, R s (s.bound t deviceRef)
  resetPorts : ∀ s, R s (omsResetPorts s)
  setHook : ∀ (s : Oms) t i hook, R s (s.setHook t i hook)
  registered : ∀ (s : Oms) b, R s (s.upd fun g => { g with callbackRegistered := b })
  detach : ∀ s, R s (omsDetach s)
  enumerated : ∀ (s : Oms) n, R s (s.upd fun g => { g with nInterfaces := n })
  validate : ∀ s i, R s (omsValidate s i)
  started : ∀ s : Oms, R s { (s.mapPorts fun iface c p =>
    if iface.valid ∧ p.valid then p.reset c else p).upd (fun g => { g with midiStarted := true }) with
      session := s.session + 1 }

namespace OmsFrame
variable {R : Oms → Oms → Prop} (hR : OmsFrame R)
include hR

theorem foldl {ι : Type*} {f : Oms → ι → Oms} (h : ∀ s x, R s (f s x)) (l : List ι) (s : Oms) :
    R s (l.foldl f s) := by
  induction l generalizing s with
  | nil => exact hR.refl s
  | cons x l ih => exact hR.trans (h s x) (ih _)

theorem drainAll (deliver : Bool) (s : Oms) : R s (omsRxDrainAll deliver s) :=
  omsRxDrainAll_inv (fun s' i h => hR.trans h (hR.drain i deliver s')) (hR.refl s)

theorem registerCallbacks (s : Oms) (t : ℕ) : R s (omsRegisterCallbacks s t) := by
  refine hR.trans (hR.registered s false) (hR.foldl ?_ _ _)
  intro s i
  exact hR.trans (hR.setHook s t i true) (hR.registered _ _)

theorem bindDispatch (s : Oms) (deviceRef : ℤ) (sym : SymbolAnswer) :
    R s (omsBindDispatch s deviceRef sym).1 := by
  rw [omsBindDispatch_eq]
  rcases sym.bindable s.drivers with _ | t
  · exact hR.locateFailed s
  · have hreset := hR.trans (hR.bound s t deviceRef) (hR.resetPorts _)
    exact hR.trans (hR.trans hreset (hR.registerCallbacks _ t)) (hR.drainAll _ _)

theorem attachDevice (s : Oms) (deviceRef : ℤ) (conn : Option SymbolAnswer) :
    R s (omsAttachDevice s deviceRef conn).1 := by
  unfold omsAttachDevice
  split_ifs
  · exact hR.refl s
  split
  · exact hR.refl s
  · exact hR.bindDispatch s deviceRef _

theorem walk (s : Oms) (devices : List (ℤ × SymbolAnswer)) : R s (omsWalk s devices).1 := by
  induction devices generalizing s with
  | nil => exact hR.locateFailed s
  | cons d devices ih =>
    have hbind := hR.bindDispatch s d.1 d.2
    unfold omsWalk
    simp only
    split_ifs
    · exact hbind
    · exact hR.trans hbind (ih _)

theorem locateDispatch (s : Oms) (devices : List (ℤ × SymbolAnswer)) :
    R s (omsLocateDispatch s devices).1 := by
  unfold omsLocateDispatch
  split_ifs
  · exact hR.refl s
  · exact hR.walk s devices

/-- **A notification.** -/
theorem usbNotify (s : Oms) (n : DeviceNotification) : R s (omsUsbNotify s n) := by
  cases n with
  | add deviceRef conn => exact hR.attachDevice s deviceRef conn
  | remove deviceRef =>
    unfold omsUsbNotify
    simp only
    split_ifs
    · exact hR.detach s
    · exact hR.refl s
  | other => exact hR.refl s

theorem enumerate (s : Oms) (t : ℕ) : R s (omsEnumerate s t) :=
  hR.trans (hR.enumerated s _) (hR.foldl hR.validate _ _)

/-- **`omdvAddDevices`.** -/
theorem addDevices (s : Oms) (hasProc : Bool) (devices : List (ℤ × SymbolAnswer)) :
    R s (omsAddDevices s hasProc devices) := by
  unfold omsAddDevices
  split_ifs
  · exact hR.refl s
  have hlocate := hR.locateDispatch s devices
  simp only
  split
  · exact hlocate
  · exact hR.trans (hR.trans hlocate (hR.registerCallbacks _ _)) (hR.enumerate _ _)

/-- **`omdvStartMIDI2`.** -/
theorem startMidi2 (s : Oms) (devices : List (ℤ × SymbolAnswer)) :
    R s (omsStartMidi2 s devices) := by
  have hlocate := hR.locateDispatch s devices
  have hdrain := hR.drainAll false (omsLocateDispatch s devices).1
  exact hR.trans (hR.trans hlocate hdrain) (hR.started _)

end OmsFrame

end Usbmidi9
