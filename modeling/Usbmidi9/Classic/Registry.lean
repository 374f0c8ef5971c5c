/-
  USBMIDI9 — the driver's registry and its hot-plug events
  (`classic/usb_driver.c`).

  The registry is an array of eight slots, the first `count` of them claimed.
  The library holds the addresses of the parameter blocks, so the calls
  outstanding belong to the slot and not to the instance: disposing an instance
  moves the last one into its slot, and the calls stay where they are.

  `registryStep` is one event: a task-level call of the driver, the completion of
  an outstanding call, or one memory access or abort of a removal notification,
  during which completions may happen.  An abort that is refused drops a bulk
  read, which will not complete then, and no other call.
-/
import Usbmidi9.Classic.Machine

namespace Usbmidi9

/-- `kUSBMIDI9MaxInterfaces`. -/
abbrev maxInterfaces : ℕ := 8

/-- `kUSBMIDI9InterfaceClass`. -/
abbrev usbmidiInterfaceClass : ℕ := 0x01

/-- `kUSBMIDI9InterfaceSubClass`. -/
abbrev usbmidiInterfaceSubClass : ℕ := 0x03

/-- `kUSBInternalErr`. -/
abbrev usbInternalErr : ℤ := -6999

/-- `kUSBNotFound`. -/
abbrev usbNotFound : ℤ := -6987

/-- The fields of an interface descriptor that the driver looks at. -/
structure InterfaceDescriptor where
  interfaceClass : ℕ
  interfaceSubClass : ℕ
  numEndpoints : ℕ
deriving DecidableEq, Repr

/-- A slot of `gUSBMIDI9Instances`, with the calls on its parameter block. -/
structure Slot where
  inst : Instance
  calls : List Call
deriving Inhabited

/-- Where a removal notification is. -/
inductive NotifyPhase where
  | idle
  /-- at the loop's condition -/
  | mark (i : ℕ) (busy : Bool)
  /-- `removing` is set -/
  | unhook (i : ℕ) (busy : Bool)
  /-- `eventCallback` is cleared -/
  | unref (i : ℕ) (busy : Bool)
  /-- `eventRefcon` is cleared -/
  | test (i : ℕ) (busy : Bool)
  /-- the pending bit was set -/
  | abort (i : ℕ)
  /-- the abort was refused -/
  | refused (i : ℕ)
  /-- the refcon word is read -/
  | clear (i : ℕ) (refcon : UInt32)
  /-- returned `kUSBDeviceBusy` or `kUSBNoErr` -/
  | returned (busy : Bool)
deriving DecidableEq, Repr

/-- The driver's globals, with the numbers of the next call and the next
    connection, and the connections that a notification has found quiet: those
    before `quietBelow`. -/
structure Registry where
  slots : ℕ → Slot
  count : ℕ
  nextId : ℕ
  nextConn : ℕ
  quietBelow : ℕ
  notify : NotifyPhase
  trace : List Entry

namespace Registry

/-- The instance in a slot. -/
abbrev inst (s : Registry) (k : ℕ) : Instance := (s.slots k).inst

/-- The calls on a slot's parameter block. -/
abbrev calls (s : Registry) (k : ℕ) : List Call := (s.slots k).calls

/-- The machine of a slot, its trace empty. -/
def machine (s : Registry) (k : ℕ) : Machine := ⟨s.inst k, s.calls k, s.nextId, []⟩

/-- Take a slot's machine back, with what it wrote. -/
def put (s : Registry) (k : ℕ) (m : Machine) : Registry :=
  { s with
    slots := Function.update s.slots k ⟨m.inst, m.calls⟩
    nextId := m.nextId
    trace := s.trace ++ m.trace }

/-- Update the instance in a slot. -/
def updInst (s : Registry) (k : ℕ) (f : Instance → Instance) : Registry :=
  { s with slots := Function.update s.slots k ⟨f (s.inst k), s.calls k⟩ }

def log (s : Registry) (e : Entry) : Registry := { s with trace := s.trace ++ [e] }

end Registry

/-! ## Task-level calls -/

/-- `USBMIDI9ClaimInstance`. -/
def claimInstance (s : Registry) : Option (ℕ × Registry) :=
  if maxInterfaces ≤ s.count then none else some (s.count, { s with count := s.count + 1 })

/-- A claimed slot is initialised for the next connection. -/
def Registry.connect (s : Registry) (k interfaceRef : ℕ) : Registry :=
  { (s.updInst k (initInstance interfaceRef s.nextConn)).log (.init s.nextConn) with
    nextConn := s.nextConn + 1 }

/-- `USBMIDI9InitializeInterfaceProc`. -/
def initializeInterface (usl : ℕ → UslAnswer) (s : Registry) (d : InterfaceDescriptor)
    (interfaceRef : ℕ) : Registry × ℤ :=
  if d.interfaceClass ≠ usbmidiInterfaceClass ∨ d.interfaceSubClass ≠ usbmidiInterfaceSubClass then
    (s, usbInternalErr)
  else if d.numEndpoints < 1 then (s, usbInternalErr)
  else match claimInstance s with
    | none => (s, usbInternalErr)
    | some (k, s) =>
      let s := s.connect k interfaceRef
      (s.put k (startTransaction usl k (s.machine k)), usbNoErr)

/-- The two stores of `USBMIDI9SetEventCallback`. -/
def Instance.setHook (callback : Option ℕ) (refcon : UInt32) (inst : Instance) : Instance :=
  { inst with eventRefcon := refcon, eventCallback := callback }

/-- `USBMIDI9SetEventCallback`. -/
def setEventCallback (s : Registry) (index : ℕ) (callback : Option ℕ) (refcon : UInt32) :
    Registry × ℤ :=
  if s.count ≤ index then (s, usbNotFound)
  else
    ((s.updInst index (.setHook callback refcon)).log
      (.setHook (s.inst index).conn (callback.map (·, refcon))), usbNoErr)

/-- `USBDeallocMem(&inst->pb)`: the block is the parameter block's buffer. -/
def usbDeallocMem (m : Machine) : Machine := m.log (.dealloc m.inst.conn m.inst.pb.usbBuffer)

/-- `USBMIDI9DeallocBlock`: the parameter block is reused for a call without a
    completion. -/
def deallocBlock (block : ℕ) (m : Machine) : Machine :=
  if block = 0 then m
  else
    usbDeallocMem (m.updPB fun pb =>
      { pb with
        usbReference := m.inst.interfaceRef, usbFlags := 0, usbRefcon := 0, usbBuffer := block
        callBack := false })

/-- `USBMIDI9DisposeInstance` up to the compaction. -/
def disposeBlocks (m : Machine) : Machine :=
  let m := deallocBlock m.inst.ringBuffer m
  let m := deallocBlock m.inst.readBufferBase m
  m.upd fun inst =>
    { inst with
      ringBuffer := 0, ring := { inst.ring with buf := none }, readBufferBase := 0, readBuffer := 0 }

/-- The slot's blocks are given back, and the registry is one slot shorter. -/
def disposeSlot (s : Registry) (index : ℕ) : Registry :=
  { (s.put index (disposeBlocks (s.machine index))).log (.touch index (s.calls index).length) with
    count := s.count - 1 }

/-- `gUSBMIDI9Instances[index] = gUSBMIDI9Instances[last]`. -/
def moveInstance (s : Registry) (index last : ℕ) : Registry :=
  (s.updInst index fun _ => s.inst last).log (.touch last (s.calls last).length)

/-- `USBMIDI9DisposeInstance`; the trace tells the slots it copies or overwrites. -/
def disposeInstance (s : Registry) (index : ℕ) : Registry :=
  let s := disposeSlot s index
  if index < s.count then moveInstance s index s.count else s

/-- The slot that `USBMIDI9FinalizeProc` disposes of. -/
def finalizeIndex (s : Registry) (interfaceRef : ℕ) : Option ℕ :=
  (List.range s.count).find? fun i => (s.inst i).interfaceRef = interfaceRef

/-- `USBMIDI9FinalizeProc`. -/
def finalizeProc (s : Registry) (interfaceRef : ℕ) : Registry :=
  match finalizeIndex s interfaceRef with
  | some i => disposeInstance s i
  | none => s

/-! ## Removal notifications -/

/-- The three stores of a notification into an instance. -/
def Instance.setRemoving (inst : Instance) : Instance := { inst with removing := true }

def Instance.unhook (inst : Instance) : Instance := { inst with eventCallback := none }

def Instance.unref (inst : Instance) : Instance := { inst with eventRefcon := 0 }

/-- `inst->pb.usbRefcon = w`. -/
def Instance.setRefcon (w : UInt32) (inst : Instance) : Instance :=
  { inst with pb := { inst.pb with usbRefcon := w } }

/-- The notification goes on at `p`. -/
def Registry.goto (s : Registry) (p : NotifyPhase) : Registry := { s with notify := p }

/-- The bulk reads on a slot's parameter block will not complete. -/
def Registry.dropReads (s : Registry) (i : ℕ) : Registry :=
  { s with
    slots := Function.update s.slots i
      ⟨s.inst i, (s.calls i).filter (·.stage ≠ kReadBulkInPipeState)⟩ }

/-- `USBMIDI9NotifyProc` returns. -/
def notifyReturn (s : Registry) (busy : Bool) : Registry :=
  { s with quietBelow := if busy then s.quietBelow else s.nextConn }.goto (.returned busy)

/-- One step of `USBMIDI9NotifyProc(kNotifyDriverBeingRemoved)`; `accepted` is
    what the library answers if the step is an abort. -/
def notifyStep (s : Registry) (accepted : Bool) : Option Registry :=
  match s.notify with
  | .idle | .returned _ => none
  | .mark i busy =>
    if i < s.count then some ((s.updInst i .setRemoving).goto (.unhook i busy))
    else some (notifyReturn s busy)
  | .unhook i busy =>
    some (((s.updInst i .unhook).log (.clearHook (s.inst i).conn)).goto (.unref i busy))
  | .unref i busy => some ((s.updInst i .unref).goto (.test i busy))
  | .test i busy =>
    if (s.inst i).pb.usbRefcon &&& kCompletionPending ≠ 0 then some (s.goto (.abort i))
    else some (s.goto (.mark (i + 1) busy))
  | .abort i =>
    if (s.inst i).bulkInPipe ≠ 0 ∧ accepted = false then
      some ((s.dropReads i).goto (.refused i))
    else some (s.goto (.mark (i + 1) true))
  | .refused i => some (s.goto (.clear i (s.inst i).pb.usbRefcon))
  | .clear i w =>
    some ((s.updInst i (.setRefcon (w &&& ~~~kCompletionPending))).goto (.mark (i + 1) true))

/-! ## Events -/

inductive RegistryEvent where
  | init (d : InterfaceDescriptor) (interfaceRef : ℕ)
  | setEventCallback (index : ℕ) (callback : Option ℕ) (refcon : UInt32)
  /-- the library completes a call on the parameter block of a slot -/
  | completion (slot id : ℕ) (r : UslResult)
  /-- a removal notification begins -/
  | notify
  | notifyStep (accepted : Bool)
  | finalize (interfaceRef : ℕ)

/-- No notification is being processed. -/
def NotifyPhase.atTask : NotifyPhase → Bool
  | .idle | .returned _ => true
  | _ => false

/-- A task-level call, possible while no notification is being processed. -/
def Registry.task (s : Registry) (f : Registry → Registry) : Option Registry :=
  if s.notify.atTask then some (f (s.goto .idle)) else none

/-- One event. -/
def registryStep (usl : ℕ → UslAnswer) (s : Registry) : RegistryEvent → Option Registry
  | .init d ref => s.task fun s => (initializeInterface usl s d ref).1
  | .setEventCallback index callback refcon =>
    s.task fun s => (setEventCallback s index callback refcon).1
  | .completion k id r =>
    if id ∈ (s.calls k).map Call.id then some (s.put k (completeCall usl k id r (s.machine k)))
    else none
  | .notify => s.task (·.goto (.mark 0 false))
  | .notifyStep accepted => notifyStep s accepted
  | .finalize ref => s.task fun s => finalizeProc s ref

/-- The driver as it is loaded: no slot is claimed, no call is outstanding. -/
def Registry.boot (slots : ℕ → Instance) : Registry :=
  ⟨fun k => ⟨slots k, []⟩, 0, 0, 0, 0, .idle, []⟩

end Usbmidi9
