/-
  USBMIDI9 — the state of the OMS driver shim (`oms/oms_driver.h`).

  `OmsGlobals` is `g_oms`, the shim's only data.  `Oms` puts it next to what it
  works with: the class driver fragments it may bind, each with the rings and
  the event callbacks of its interfaces, and a trace of the calls it makes to
  OMS, to its transport and to the toolbox.

  The source keeps no record of when a byte arrived.  Here a byte in a ring
  carries the session it arrived in, none while MIDI was off; a session begins
  with every `omdvStartMIDI2` and with every `omdvStopMIDI`.

  The model is the PowerPC build: messages reach OMS through `rxRoutine`.
-/
import Usbmidi9.Classic.Ring
import Usbmidi9.Core.Decoder
import Usbmidi9.Core.Transmit

namespace Usbmidi9

/-! ## Constants -/

/-- `kUSBMIDI9OMSMaxInterfaces`. -/
abbrev omsMaxInterfaces : ℕ := 8

/-- `kUSBMIDI9OMSCables`. -/
abbrev omsCables : ℕ := 16

/-- `kUSBMIDI9OMSDequeueChunk`. -/
abbrev omsDequeueChunk : ℕ := 64

/-- `kUSBMIDI9OMSDispatchMinVersion`. -/
abbrev omsDispatchMinVersion : ℕ := 0x0002

/-- `omsContMask` and the continuation states. -/
abbrev omsContMask : UInt8 := 0x03
abbrev omsNoCont : UInt8 := 0x00
abbrev omsStartCont : UInt8 := 0x01
abbrev omsEndCont : UInt8 := 0x02
abbrev omsMidCont : UInt8 := 0x03

/-! ## Ports -/

/-- `oms_port`. -/
structure OmsPort where
  ioRefNum : Int16
  valid : Bool
  rx : RxStream
  tx : TxStream
  txCarry : List UInt8
  txCarryLen : ℕ

/-- A zeroed `um9_rx_stream`. -/
def RxStream.zero : RxStream :=
  ⟨0, false, 0, 0, fun _ => ⟨[0, 0, 0], 0, .none⟩, ⟨0, 0, 0, 0, 0, 0, 0, 0⟩⟩

/-- A zeroed `oms_port`. -/
def OmsPort.zero : OmsPort := ⟨0, false, .zero, ⟨0, 0, 0⟩, [0, 0, 0], 0⟩

/-- `um9_rx_init` and `um9_tx_init` on a port. -/
def OmsPort.initStreams (p : OmsPort) (cable : ℕ) : OmsPort :=
  { p with rx := um9RxInit p.rx cable, tx := um9TxInit cable }

/-- Reset a port's streams and its carry. -/
def OmsPort.reset (p : OmsPort) (cable : ℕ) : OmsPort :=
  { p.initStreams cable with txCarryLen := 0 }

/-- A port that is used before it was given a refnum. -/
def OmsPort.open_ (p : OmsPort) (cable : ℕ) : OmsPort :=
  if p.valid then p else { p.initStreams cable with valid := true, ioRefNum := -1 }

/-- The refnum that messages are delivered with; negative if they are not. -/
def OmsPort.refnum (p : OmsPort) : Int16 := if p.valid then p.ioRefNum else -1

/-- `oms_iface`, without the descriptive record. -/
structure OmsIface where
  valid : Bool
  ports : ℕ → OmsPort

def OmsIface.zero : OmsIface := ⟨false, fun _ => .zero⟩

/-! ## The shim -/

/-- `oms_state`; `table` and `deviceRef` say which class driver is bound, and
    `sendUpp` and `token` number routine descriptors and notifications. -/
structure OmsGlobals where
  table : Option ℕ
  deviceRef : ℤ
  midiStarted : Bool
  notifierInstalled : Bool
  callbackRegistered : Bool
  nInterfaces : ℕ
  ifaces : ℕ → OmsIface
  token : ℕ
  sendUpp : Option ℕ
  rxRoutine : ℕ
  rxPackets : UInt32
  rxMessages : UInt32
  rxDropped : UInt32
  txConverted : UInt32
  txDropped : UInt32
  txMalformed : UInt32
  relocates : UInt32
  locateFailures : UInt32
  events : UInt32

/-- `g_oms` after `oms_zero`. -/
def OmsGlobals.zero : OmsGlobals :=
  ⟨none, 0, false, false, false, 0, fun _ => .zero, 0, none, 0, 0, 0, 0, 0, 0, 0, 0, 0, 0⟩

/-- A byte in a ring, with the session it arrived in. -/
structure RingByte where
  val : UInt8
  session : Option ℕ
deriving DecidableEq, Repr, Inhabited

/-- A class driver fragment, as its dispatch table shows it: the interfaces below
    `count`, their rings, and where `oms_rx_event` is registered. -/
structure ClassDriver where
  version : ℕ
  hasEventCallback : Bool
  count : ℕ
  rings : ℕ → Ring RingByte
  hooks : ℕ → Bool

/-- `OMSPacket`. -/
structure OmsPacket where
  flags : UInt8
  len : UInt8
  srcIORefNum : UInt16
  appConnRefCon : UInt16
  data : List UInt8
deriving DecidableEq, Repr

/-- What the shim does outside its own data. -/
inductive OmsEntry where
  /-- `OMSReceivedFromPort`, in a session, with the bytes of the Event Packet
      that the message was decoded from -/
  | received (source : List RingByte) (session : ℕ) (pkt : OmsPacket) (ioRefNum : Int16)
  /-- `oms_tx_transport` -/
  | transport (portCode : ℕ) (pkt : EventPacket)
  /-- `NewOMSReadHook2` and `DisposeRoutineDescriptor` -/
  | newDescriptor (upp : ℕ)
  | disposeDescriptor (upp : ℕ)
  /-- `USBInstallDeviceNotification` and `USBRemoveDeviceNotification` -/
  | installNotification (token : ℕ)
  | removeNotification (token : ℕ)
deriving DecidableEq, Repr

/-- The shim and its surroundings. -/
structure Oms where
  g : OmsGlobals
  drivers : ℕ → ClassDriver
  session : ℕ
  trace : List OmsEntry

namespace Oms
variable (s : Oms)

/-- Update `g_oms`. -/
def upd (f : OmsGlobals → OmsGlobals) : Oms := { s with g := f s.g }

/-- `&g_oms.ifaces[i].ports[c]`. -/
def port (i c : ℕ) : OmsPort := (s.g.ifaces i).ports c

/-- Store a port. -/
def setPort (i c : ℕ) (p : OmsPort) : Oms :=
  s.upd fun g =>
    { g with
      ifaces := Function.update g.ifaces i
        { g.ifaces i with ports := Function.update (g.ifaces i).ports c p } }

/-- Update every port. -/
def mapPorts (f : OmsIface → ℕ → OmsPort → OmsPort) : Oms :=
  s.upd fun g =>
    { g with ifaces := fun i => { g.ifaces i with ports := fun c => f (g.ifaces i) c ((g.ifaces i).ports c) } }

def setDriver (t : ℕ) (d : ClassDriver) : Oms := { s with drivers := Function.update s.drivers t d }

/-- Store the ring of an interface. -/
def setRing (t i : ℕ) (r : Ring RingByte) : Oms :=
  s.setDriver t { s.drivers t with rings := Function.update (s.drivers t).rings i r }

/-- `setEventCallback(i, …)` of a driver, which fails for an interface it has not. -/
def setHook (t i : ℕ) (hook : Bool) : Oms :=
  s.setDriver t { s.drivers t with
    hooks := if i < (s.drivers t).count then Function.update (s.drivers t).hooks i hook
      else (s.drivers t).hooks }

def log (es : List OmsEntry) : Oms := { s with trace := s.trace ++ es }

/-- `g_oms.txMalformed++`. -/
def malformed : Oms := s.upd fun g => { g with txMalformed := g.txMalformed + 1 }

end Oms

end Usbmidi9
