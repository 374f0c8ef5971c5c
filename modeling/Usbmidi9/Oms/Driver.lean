/-
  USBMIDI9 — the messages and notifications of the shim (`oms/oms_driver.c`).

  `omsHandleMessage` answers the messages of OMS, `omsUsbNotify` the USB
  Manager's device notifications; both may bind the dispatch table of a class
  driver fragment.  What the toolbox answers, which fragments a lookup finds
  among them, comes with the event.

  `omsStep` is one event of the shim's surroundings.  A read completion stores
  its bytes in the ring of its interface and calls the push hook.
-/
import Usbmidi9.Lib.Reach
import Usbmidi9.Oms.Rx
import Usbmidi9.Oms.Tx

namespace Usbmidi9

/-- `noErr`, `kUSBNotFound` and `kUSBBadDispatchTable`. -/
abbrev omsNoErr : ℤ := 0
abbrev omsUsbNotFound : ℤ := -6987
abbrev omsBadDispatchTable : ℤ := -6950

/-! ## Binding a class driver -/

/-- What `FindSymbol` answers: an error code and the table. -/
structure SymbolAnswer where
  err : ℤ
  table : Option ℕ
deriving DecidableEq

/-- `oms_reset_ports`. -/
def omsResetPorts (s : Oms) : Oms := s.mapPorts fun _ c p => if p.valid then p.reset c else p

/-- `oms_register_callbacks`. -/
def omsRegisterCallbacks (s : Oms) (t : ℕ) : Oms :=
  (List.range omsMaxInterfaces).foldl
    (fun s i =>
      (s.setHook t i true).upd fun g =>
        { g with callbackRegistered := g.callbackRegistered || i < (s.drivers t).count })
    (s.upd fun g => { g with callbackRegistered := false })

/-- A lookup failed. -/
def Oms.locateFailed (s : Oms) : Oms :=
  s.upd fun g => { g with locateFailures := g.locateFailures + 1 }

/-- `g_oms.table`, `deviceRef` and `relocates` of a class driver that is bound. -/
def Oms.bound (s : Oms) (t : ℕ) (deviceRef : ℤ) : Oms :=
  s.upd fun g =>
    { g with table := some t, deviceRef := deviceRef, relocates := g.relocates + 1 }

/-- `oms_bind_dispatch`. -/
def omsBindDispatch (s : Oms) (deviceRef : ℤ) (sym : SymbolAnswer) : Oms × ℤ :=
  if sym.err ≠ omsNoErr then (s.locateFailed, sym.err)
  else match sym.table with
  | none => (s.locateFailed, omsBadDispatchTable)
  | some t =>
    if (s.drivers t).version < omsDispatchMinVersion ∨ (s.drivers t).hasEventCallback = false then
      (s.locateFailed, omsBadDispatchTable)
    else
      let s := omsRegisterCallbacks (omsResetPorts (s.bound t deviceRef)) t
      (omsRxDrainAll s.g.midiStarted s, omsNoErr)

/-- `oms_attach_device`; `conn` is what `USBGetDriverConnectionID` leads to. -/
def omsAttachDevice (s : Oms) (deviceRef : ℤ) (conn : Option SymbolAnswer) : Oms × ℤ :=
  if s.g.table ≠ none then (s, omsNoErr)
  else match conn with
    | none => (s, omsUsbNotFound)
    | some sym => omsBindDispatch s deviceRef sym

/-- The walk of `oms_locate_dispatch` over the devices found. -/
def omsWalk : Oms → List (ℤ × SymbolAnswer) → Oms × ℤ
  | s, [] => (s.locateFailed, omsUsbNotFound)
  | s, (deviceRef, sym) :: devices =>
    let r := omsBindDispatch s deviceRef sym
    if r.2 = omsNoErr then r else omsWalk r.1 devices

/-- `oms_locate_dispatch`, also `oms_ensure_dispatch`. -/
def omsLocateDispatch (s : Oms) (devices : List (ℤ × SymbolAnswer)) : Oms × ℤ :=
  if s.g.table ≠ none then (s, omsNoErr) else omsWalk s devices

/-- `kNoDeviceRef`. -/
abbrev noDeviceRef : ℤ := -1

/-- `oms_detach`. -/
def omsDetach (s : Oms) : Oms :=
  s.upd fun g =>
    { g with
      table := none, deviceRef := noDeviceRef, callbackRegistered := false, nInterfaces := 0
      ifaces := fun _ => .zero }

/-- A device notification. -/
inductive DeviceNotification where
  | add (deviceRef : ℤ) (conn : Option SymbolAnswer)
  | remove (deviceRef : ℤ)
  | other
deriving DecidableEq

/-- `oms_usb_notify`. -/
def omsUsbNotify (s : Oms) : DeviceNotification → Oms
  | .add deviceRef conn => (omsAttachDevice s deviceRef conn).1
  | .remove deviceRef => if s.g.table ≠ none ∧ deviceRef = s.g.deviceRef then omsDetach s else s
  | .other => s

/-! ## Messages -/

/-- `NewOMSReadHook2`. -/
def omsNewSendUpp (s : Oms) (upp : Option ℕ) : Oms :=
  (s.upd fun g => { g with sendUpp := upp }).log (upp.toList.map .newDescriptor)

/-- Remove the notification and dispose of the send proc. -/
def omsRelease (s : Oms) : Oms :=
  let s := if s.g.notifierInstalled then
      (s.upd fun g => { g with notifierInstalled := false }).log [.removeNotification s.g.token]
    else s
  (s.upd fun g => { g with sendUpp := none }).log (s.g.sendUpp.toList.map .disposeDescriptor)

/-- What the toolbox answers while `omdvInit` runs. -/
structure InitAnswers where
  upp : Option ℕ
  /-- notifications delivered while the notification is installed -/
  installed : List DeviceNotification
  token : Option ℕ
  devices : List (ℤ × SymbolAnswer)
  /-- the address of `OMSReceivedFromPort`, 0 if it cannot be resolved -/
  routine : ℕ

/-- `oms_zero(&g_oms, …)`. -/
def Oms.cleared (s : Oms) : Oms := { s with g := .zero }

/-- The notification is installed, if `token` is given. -/
def Oms.installed (s : Oms) : Option ℕ → Oms
  | some token =>
    (s.upd fun g => { g with notifierInstalled := true, token := token }).log
      [.installNotification token]
  | none => s

/-- `oms_init`. -/
def omsInit (s : Oms) (a : InitAnswers) : Oms :=
  let s := a.installed.foldl omsUsbNotify (omsNewSendUpp (omsRelease s).cleared a.upp)
  (omsLocateDispatch (s.installed a.token) a.devices).1.upd fun g =>
    { g with rxRoutine := a.routine }

/-- `oms_dispose`. -/
def omsDispose (s : Oms) : Oms :=
  let s := match s.g.table with
    | some t =>
      if (s.drivers t).hasEventCallback then
        (List.range omsMaxInterfaces).foldl (fun s i => s.setHook t i false) s
      else s
    | none => s
  (omsRelease s).cleared

/-- An interface is marked valid. -/
def omsValidate (s : Oms) (i : ℕ) : Oms :=
  s.upd fun g => { g with ifaces := Function.update g.ifaces i { g.ifaces i with valid := true } }

/-- The interfaces that `enumerateInterfaces` counts are marked valid;
    `getInterfaceInfo` succeeds for each of them. -/
def omsEnumerate (s : Oms) (t : ℕ) : Oms :=
  let count := min (s.drivers t).count omsMaxInterfaces
  (List.range count).foldl omsValidate (s.upd fun g => { g with nInterfaces := count })

/-- `oms_add_devices`. -/
def omsAddDevices (s : Oms) (hasProc : Bool) (devices : List (ℤ × SymbolAnswer)) : Oms :=
  if hasProc = false then s
  else
    let s := (omsLocateDispatch s devices).1
    match s.g.table with
    | none => s
    | some t => omsEnumerate (omsRegisterCallbacks s t) t

/-- `oms_start_midi2` once a class driver is bound, or none is found: discard the
    backlog, reset the streams and start. -/
def omsStart (s : Oms) : Oms :=
  let s := (omsRxDrainAll false s).mapPorts fun iface c p =>
    if iface.valid ∧ p.valid then p.reset c else p
  { s.upd fun g => { g with midiStarted := true } with session := s.session + 1 }

/-- `oms_start_midi2`. -/
def omsStartMidi2 (s : Oms) (devices : List (ℤ × SymbolAnswer)) : Oms :=
  omsStart (omsLocateDispatch s devices).1

/-- `oms_stop_midi`. -/
def omsStopMidi (s : Oms) : Oms :=
  { s.upd fun g => { g with midiStarted := false } with session := s.session + 1 }

/-- `OMSPortID`. -/
structure OmsPortID where
  whichInterface : Int16
  whichPort : Int16
deriving DecidableEq

/-- `(unsigned)` of a `short`. -/
def unsignedOfShort (x : Int16) : ℕ := (x.toInt % (u32Size : ℤ)).toNat

/-- The port that a port ID names, its interface counted from 1. -/
def OmsPortID.port? (id : OmsPortID) : Option (ℕ × ℕ) :=
  let ifaceNo := unsignedOfShort id.whichInterface
  let cable := unsignedOfShort id.whichPort
  if ifaceNo < 1 ∨ omsMaxInterfaces < ifaceNo ∨ omsCables ≤ cable then none
  else some (ifaceNo, cable)

/-- `OMSSendParams`. -/
structure OmsSendParams where
  proc : Option ℕ
  paramD0 : ℕ
  paramD1 : ℕ
deriving DecidableEq

/-- `oms_get_port_send_proc`; `upp` answers a second allocation. -/
def omsGetPortSendProc (s : Oms) (portID : Option OmsPortID) (sendPars : Option OmsSendParams)
    (upp : Option ℕ) : Oms × ℤ × Option OmsSendParams :=
  match portID, sendPars with
  | some id, some _ =>
    match id.port? with
    | none => (s, 0, sendPars)
    | some (ifaceNo, cable) =>
      let s := if s.g.sendUpp = none then omsNewSendUpp s upp else s
      match s.g.sendUpp with
      | none => (s, omsBadDispatchTable, some ⟨none, 0, 0⟩)
      | some upp => (s, 0, some ⟨some upp, (ifaceNo <<< 8) ||| cable, 0⟩)
  | _, _ => (s, 0, sendPars)

/-- `oms_set_port_receive_refnum`. -/
def omsSetPortReceiveRefNum (s : Oms) (portID : Option OmsPortID) (ioRefNum : Int16) : Oms :=
  match portID.bind OmsPortID.port? with
  | none => s
  | some (ifaceNo, cable) =>
    s.setPort (ifaceNo - 1) cable
      { (s.port (ifaceNo - 1) cable).initStreams cable with valid := true, ioRefNum := ioRefNum }

/-- The `omdv*` messages, with their parameters and what the toolbox answers. -/
inductive OmsMessage where
  | init (answers : InitAnswers)
  | dispose
  | addDevices (hasProc : Bool) (devices : List (ℤ × SymbolAnswer))
  | startMIDI
  | startMIDI2 (devices : List (ℤ × SymbolAnswer))
  | stopMIDI
  | getPortSendProc (portID : Option OmsPortID) (sendPars : Option OmsSendParams) (upp : Option ℕ)
  | setPortReceiveRefNum (portID : Option OmsPortID) (ioRefNum : Int16)
  /-- the messages that are answered with zero -/
  | other

/-- `oms_handle_message`: what a message does. -/
def omsHandleMessage (s : Oms) : OmsMessage → Oms
  | .init answers => omsInit s answers
  | .dispose => omsDispose s
  | .addDevices hasProc devices => omsAddDevices s hasProc devices
  | .startMIDI => s
  | .startMIDI2 devices => omsStartMidi2 s devices
  | .stopMIDI => omsStopMidi s
  | .getPortSendProc portID sendPars upp => (omsGetPortSendProc s portID sendPars upp).1
  | .setPortReceiveRefNum portID ioRefNum => omsSetPortReceiveRefNum s portID ioRefNum
  | .other => s

/-! ## Events -/

/-- The bytes of a transfer, as they arrive. -/
def Oms.stamp (s : Oms) (data : List UInt8) : List RingByte :=
  data.map fun b => ⟨b, if s.g.midiStarted then some s.session else none⟩

/-- A read completion of a class driver: `um9_ring_enqueue` and the push hook. -/
def omsCompletion (s : Oms) (t i : ℕ) (data : List UInt8) : Oms :=
  if data = [] then s
  else
    let s := s.setRing t i (um9RingEnqueue ringSize ((s.drivers t).rings i) (s.stamp data)).1
    if (s.drivers t).hooks i then omsRxEvent i s else s

/-- A class driver gets one more interface, without bytes and without a hook. -/
def omsAppear (s : Oms) (t : ℕ) (buf : ℕ → RingByte) : Oms :=
  let d := s.drivers t
  s.setDriver t { d with
    count := d.count + 1
    rings := Function.update d.rings d.count ⟨some buf, 0, 0⟩
    hooks := Function.update d.hooks d.count false }

inductive OmsEvent where
  | message (m : OmsMessage)
  | notification (n : DeviceNotification)
  | completion (t i : ℕ) (data : List UInt8)
  /-- the send hook is called -/
  | send (pkt : Option OmsMidiPacket) (refCon : ℕ)
  | appear (t : ℕ) (buf : ℕ → RingByte)
  /-- a class driver is told of its removal, and clears its hooks -/
  | removed (t : ℕ)

/-- One event. -/
def omsStep (s : Oms) : OmsEvent → Option Oms
  | .message m => some (omsHandleMessage s m)
  | .notification n => some (omsUsbNotify s n)
  | .completion t i data => if i < (s.drivers t).count then some (omsCompletion s t i data) else none
  | .send pkt refCon => omsTxSend s pkt refCon
  | .appear t buf => if (s.drivers t).count < omsMaxInterfaces then some (omsAppear s t buf) else none
  | .removed t => some (s.setDriver t { s.drivers t with hooks := fun _ => false })

/-- A class driver that was just loaded. -/
def ClassDriver.Fresh (d : ClassDriver) : Prop :=
  d.count ≤ omsMaxInterfaces ∧ ∀ i, (d.rings i).head = 0 ∧ (d.rings i).tail = 0 ∧ d.hooks i = false

/-- A class driver with one interface. -/
def ClassDriver.single : ClassDriver :=
  ⟨omsDispatchMinVersion, true, 1, fun _ => ⟨some fun _ => default, 0, 0⟩, fun _ => false⟩

/-- The shim as it is loaded, with class drivers that are fresh or will be. -/
def Oms.boot (drivers : ℕ → ClassDriver) : Oms := ⟨.zero, drivers, 0, []⟩

/-- The shim after some events, with class drivers of one interface. -/
def afterEvents (es : List OmsEvent) : Oms :=
  (runEvents omsStep (.boot fun _ => .single) es).getD (.boot fun _ => .single)

end Usbmidi9
