/-
  USBMIDI9 — one class driver instance and its asynchronous state machine
  (`classic/usb_driver.h`, `classic/usb_driver.c`).

  Every stage fills the instance's parameter block, issues one call of the USB
  Services Library (USL) on it, and is left by the call's completion.
  `initiateTransaction` and `completionProc` are mutually recursive in the
  source: a call may complete while it is being issued.  Here the completion
  takes the transaction as an argument, and the transaction recurses on a bound
  for the nesting, which the source's own bound keeps from running out
  (`initiateTransaction_enough`).

  * `Instance` and `UsbPB` are the records of the source, without the fields
    that only describe the interface to clients;
  * `Machine` adds what the source cannot see: the calls outstanding on the
    parameter block, and a trace of what was issued, completed and called back;
  * `usl` answers each call, in any way the library may.

  The push hook is an entry of the trace; what its client does with the ring is
  not part of this machine.
-/
import Usbmidi9.Classic.Ring

namespace Usbmidi9

/-! ## Constants -/

/-- `kUSBNoErr`. -/
abbrev usbNoErr : ℤ := 0

/-- `kUSBPending`. -/
abbrev usbPending : ℤ := 1

/-- `kUSBPipeStalledError`. -/
abbrev usbPipeStalledError : ℤ := -6979

/-- `kUSBAbortedError`. -/
abbrev usbAbortedError : ℤ := -6982

abbrev kAllocRingState : UInt32 := 0
abbrev kConfigureInterfaceState : UInt32 := 1
abbrev kFindBulkInPipeState : UInt32 := 2
abbrev kAllocReadBufferState : UInt32 := 3
abbrev kReadBulkInPipeState : UInt32 := 4
abbrev kStageMask : UInt32 := 0x00ff
abbrev kReturnFromDriver : UInt32 := 0x1000
abbrev kCompletionPending : UInt32 := 0x8000

/-- `kUSBMIDI9MaxSyncDepth`. -/
abbrev maxSyncDepth : ℕ := 16

/-- `kUSBMIDI9ReadAlignment`. -/
abbrev readAlignment : ℕ := 64

/-! ## Records -/

/-- `USBPB`, as far as the driver uses it; `usbData` are the `usbActCount` bytes
    at `usbBuffer`, `mem` is the memory of an allocated block. -/
structure UsbPB where
  usbReference : ℕ
  usbRefcon : UInt32
  usbBuffer : ℕ
  usbReqCount : ℕ
  usbData : List UInt8
  usbFlags : ℕ
  usbClassType : ℕ
  wValue : ℕ
  usbStatus : ℤ
  callBack : Bool
  mem : ℕ → UInt8
deriving Inhabited

/-- `usbmidi9_instance`; a pointer is 0 when it is `nil`.  `ring` is the memory at
    `ringBuffer` with its indices, and `conn` numbers the interface connections. -/
structure Instance where
  pb : UsbPB
  interfaceRef : ℕ
  bulkInPipe : ℕ
  maxPacketSize : ℕ
  readBufferBase : ℕ
  readBuffer : ℕ
  ringBuffer : ℕ
  ring : Ring UInt8
  lastReadStatus : ℤ
  lastReadCount : ℕ
  callToken : UInt32
  callInFlight : UInt32
  transDepth : ℕ
  removing : Bool
  eventCallback : Option ℕ
  eventRefcon : UInt32
  conn : ℕ
deriving Inhabited

/-- What a completed call leaves in the parameter block. -/
structure UslResult where
  status : ℤ
  buffer : ℕ
  reference : ℕ
  wValue : ℕ
  data : List UInt8
  mem : ℕ → UInt8

/-- A code that is neither success nor `kUSBPending`. -/
structure UslError where
  code : ℤ
  ne_noErr : code ≠ usbNoErr
  ne_pending : code ≠ usbPending

/-- How the library answers a call. -/
inductive UslAnswer where
  /-- returns `kUSBPending` and completes later -/
  | pending
  /-- completes inside the call, which then returns any code -/
  | completed (r : UslResult) (ret : ℤ)
  /-- returns `kUSBNoErr` without a completion -/
  | noErr (r : UslResult)
  /-- returns an error; no completion will come -/
  | error (e : UslError)

/-- An outstanding call: its number and the stage that issued it. -/
structure Call where
  id : ℕ
  stage : UInt32
deriving DecidableEq, Repr

/-- An event callback with its refcon. -/
abbrev Hook := ℕ × UInt32

/-- The entries of a trace. -/
inductive Entry where
  /-- a call was issued for a connection while `outstanding` others were -/
  | issue (id conn : ℕ) (stage : UInt32) (outstanding : ℕ)
  /-- a call's completion transition was executed -/
  | complete (id : ℕ)
  /-- the completion of read `id` called a hook -/
  | callback (id : ℕ) (hook : Hook) (index : ℕ)
  /-- `USBClearPipeStallByReference` was called -/
  | clearStall (pipe : ℕ)
  /-- a connection was initialised -/
  | init (conn : ℕ)
  /-- a client stored or cleared a connection's hook -/
  | setHook (conn : ℕ) (hook : Option Hook)
  /-- a removal notification cleared a connection's hook -/
  | clearHook (conn : ℕ)
  /-- `USBDeallocMem` was given a block, in the slot of a connection -/
  | dealloc (conn block : ℕ)
  /-- disposing copied or overwrote a slot with `outstanding` calls on it -/
  | touch (slot outstanding : ℕ)
deriving DecidableEq, Repr

/-- An instance with the calls outstanding on its parameter block. -/
structure Machine where
  inst : Instance
  calls : List Call
  nextId : ℕ
  trace : List Entry

namespace Machine

/-- Update the instance. -/
def upd (m : Machine) (f : Instance → Instance) : Machine := { m with inst := f m.inst }

/-- Update the parameter block. -/
def updPB (m : Machine) (f : UsbPB → UsbPB) : Machine :=
  m.upd fun inst => { inst with pb := f inst.pb }

/-- Store the refcon word. -/
def setRefcon (m : Machine) (w : UInt32) : Machine := m.updPB fun pb => { pb with usbRefcon := w }

/-- `inst->pb.usbRefcon &= ~kCompletionPending`. -/
def clearPending (m : Machine) : Machine :=
  m.setRefcon (m.inst.pb.usbRefcon &&& ~~~kCompletionPending)

def log (m : Machine) (e : Entry) : Machine := { m with trace := m.trace ++ [e] }

/-- `inst->pb.usbRefcon`. -/
abbrev refcon (m : Machine) : UInt32 := m.inst.pb.usbRefcon

/-- The library completes a call: it is no longer outstanding, and its result is
    in the parameter block. -/
def finish (m : Machine) (id : ℕ) (r : UslResult) : Machine :=
  { m.updPB fun pb =>
      { pb with
        usbStatus := r.status, usbBuffer := r.buffer, usbReference := r.reference,
        wValue := r.wValue, usbData := r.data, mem := r.mem } with
    calls := m.calls.filter (·.id ≠ id) }

/-- The library refuses a call. -/
def refuse (m : Machine) (id : ℕ) : Machine := { m with calls := m.calls.filter (·.id ≠ id) }

end Machine

/-- `inst->eventCallback` with `inst->eventRefcon`. -/
def Instance.hook (inst : Instance) : Option Hook := inst.eventCallback.map (·, inst.eventRefcon)

/-! ## The machine -/

/-- `USBMIDI9InitParamBlock`. -/
def initParamBlock (ref : ℕ) (pb : UsbPB) : UsbPB :=
  { pb with
    usbReference := ref, wValue := 0, usbBuffer := 0, usbReqCount := 0, usbData := [],
    usbFlags := 0, usbClassType := 0, usbStatus := usbNoErr, callBack := true }

/-- `kUSBIn`. -/
abbrev usbIn : ℕ := 1

/-- `kUSBBulk`. -/
abbrev usbBulk : ℕ := 2

/-- The parameter block that a stage issues its call with; none for a word that
    names no stage. -/
def stagePB (stage : UInt32) (inst : Instance) : Option UsbPB :=
  let pb := initParamBlock inst.interfaceRef inst.pb
  let pending := inst.pb.usbRefcon ||| kCompletionPending
  if stage = kAllocRingState then
    some { pb with usbReqCount := ringSize, usbRefcon := pending }
  else if stage = kConfigureInterfaceState then some { pb with usbRefcon := pending }
  else if stage = kFindBulkInPipeState then
    some { pb with usbFlags := usbIn, usbClassType := usbBulk, usbRefcon := pending }
  else if stage = kAllocReadBufferState then
    some { pb with usbReqCount := inst.maxPacketSize + (readAlignment - 1), usbRefcon := pending }
  else if stage = kReadBulkInPipeState then
    some { initParamBlock inst.bulkInPipe inst.pb with
      usbBuffer := inst.readBuffer, usbReqCount := inst.maxPacketSize, usbRefcon := pending }
  else none

/-- The next multiple of the read alignment. -/
def alignUp (a : ℕ) : ℕ := (a + (readAlignment - 1)) / readAlignment * readAlignment

/-- A stage whose completion stops the machine unless it succeeded. -/
def Instance.advance (inst : Instance) (next : UInt32) (f : Instance → Instance) : Instance :=
  if inst.pb.usbStatus = usbNoErr then
    { f inst with pb := { inst.pb with usbRefcon := next } }
  else { inst with pb := { inst.pb with usbRefcon := kReturnFromDriver } }

/-- The word that the read stage leaves: read on, also after a stall that was
    cleared, or stop. -/
def readNext (status : ℤ) : UInt32 :=
  if status = usbNoErr then kReadBulkInPipeState
  else if status = usbPipeStalledError then kReadBulkInPipeState
  else kReturnFromDriver

/-- `case kReadBulkInPipeState` of the completion of read `id`: the bytes go into the
    ring, and the hook is called; a stall is cleared. -/
def readCompleted (index id : ℕ) (m : Machine) : Machine :=
  let pb := m.inst.pb
  let m := m.upd fun inst =>
    { inst with lastReadStatus := pb.usbStatus, lastReadCount := pb.usbData.length }
  let m :=
    if pb.usbStatus = usbNoErr ∧ 0 < pb.usbData.length then
      let m := m.upd fun inst =>
        { inst with ring := (um9RingEnqueue ringSize inst.ring pb.usbData).1 }
      match m.inst.hook with
      | some hook => m.log (.callback id hook index)
      | none => m
    else m
  let m :=
    if pb.usbStatus = usbPipeStalledError then m.log (.clearStall m.inst.bulkInPipe) else m
  m.setRefcon (readNext pb.usbStatus)

/-- The switch of `USBMIDI9CompletionProc`. -/
def completionStage (index id : ℕ) (m : Machine) : Machine :=
  let stage := m.refcon &&& kStageMask
  let m := m.upd fun inst => { inst with callInFlight := 0 }
  if stage = kAllocRingState then
    m.upd (·.advance kConfigureInterfaceState fun inst =>
      { inst with
        ringBuffer := inst.pb.usbBuffer
        ring := { inst.ring with
          buf := if inst.pb.usbBuffer = 0 then none else some inst.pb.mem } })
  else if stage = kConfigureInterfaceState then m.upd (·.advance kFindBulkInPipeState fun inst => inst)
  else if stage = kFindBulkInPipeState then
    m.upd (·.advance kAllocReadBufferState fun inst =>
      { inst with bulkInPipe := inst.pb.usbReference, maxPacketSize := inst.pb.wValue })
  else if stage = kAllocReadBufferState then
    m.upd (·.advance kReadBulkInPipeState fun inst =>
      { inst with
        readBufferBase := inst.pb.usbBuffer, readBuffer := alignUp inst.pb.usbBuffer })
  else if stage = kReadBulkInPipeState then readCompleted index id m
  else m.setRefcon kReturnFromDriver

/-- `USBMIDI9CompletionProc` for call `id` up to its last statement. -/
def stageDone (index id : ℕ) (m : Machine) : Machine :=
  (completionStage index id (m.log (.complete id))).clearPending

/-- `USBMIDI9CompletionProc` for call `id`; `initiate` is the transaction it
    ends with. -/
def completionProc (initiate : Machine → Machine) (index id : ℕ) (m : Machine) : Machine :=
  let m := stageDone index id m
  if m.refcon &&& kReturnFromDriver = 0 ∧ m.inst.removing = false then initiate m else m

/-- The call with the machine's next number is issued. -/
def Machine.issue (m : Machine) (stage : UInt32) : Machine :=
  { m.log (.issue m.nextId m.inst.conn stage m.calls.length) with
    calls := ⟨m.nextId, stage⟩ :: m.calls
    nextId := m.nextId + 1 }

section
variable (usl : ℕ → UslAnswer) (index : ℕ)

/-- Call `id` is made: the machine when it returns, and what it returns. -/
def callUsl (initiate : Machine → Machine) (id : ℕ) (m : Machine) : Machine × ℤ :=
  match usl id with
  | .pending => (m, usbPending)
  | .completed r ret => (completionProc initiate index id (m.finish id r), ret)
  | .noErr r => (m.finish id r, usbNoErr)
  | .error e => (m.refuse id, e.code)

/-- What follows the return of call `id`, which was issued under `token`. -/
def callReturned (initiate : Machine → Machine) (id : ℕ) (token : UInt32) (m : Machine)
    (err : ℤ) : Machine :=
  if err = usbPending then m
  else if m.inst.callInFlight ≠ token then m
  else if err = usbNoErr ∧ m.refcon &&& kReturnFromDriver = 0 then
    completionProc initiate index id (m.clearPending.updPB fun pb =>
      { pb with usbStatus := usbNoErr, usbData := [] })
  else if err = usbNoErr then m
  else m.setRefcon kReturnFromDriver

/-- `inst->transDepth++`. -/
def Machine.enter (m : Machine) : Machine :=
  m.upd fun inst => { inst with transDepth := inst.transDepth + 1 }

/-- `inst->transDepth--`. -/
def Machine.leave (m : Machine) : Machine :=
  m.upd fun inst => { inst with transDepth := inst.transDepth - 1 }

/-- `inst->callInFlight = ++inst->callToken`. -/
def Machine.takeToken (m : Machine) : Machine :=
  m.upd fun inst =>
    { inst with callToken := inst.callToken + 1, callInFlight := inst.callToken + 1 }

/-- `USBMIDI9InitiateTransaction`; the first argument bounds the nesting. -/
def initiateTransaction : ℕ → Machine → Machine
  | 0, m => m
  | fuel + 1, m =>
    if m.inst.removing then m.setRefcon kReturnFromDriver
    else if maxSyncDepth < m.enter.inst.transDepth then m.enter.leave.setRefcon kReturnFromDriver
    else
      let issued := m.enter.refcon &&& kStageMask
      let m := m.enter.takeToken
      let token := m.inst.callToken
      match stagePB issued m.inst with
      | none => m.leave.setRefcon kReturnFromDriver
      | some pb =>
        let id := m.nextId
        let r := callUsl usl index (initiateTransaction fuel) id ((m.updPB fun _ => pb).issue issued)
        (callReturned index (initiateTransaction fuel) id token r.1 r.2).leave

/-- Enough nesting for a transaction that is not itself nested. -/
abbrev transFuel : ℕ := maxSyncDepth + 1

/-- A transaction started from outside. -/
def startTransaction (m : Machine) : Machine := initiateTransaction usl index transFuel m

/-- The library completes call `id` later on. -/
def completeCall (id : ℕ) (r : UslResult) (m : Machine) : Machine :=
  completionProc (startTransaction usl index) index id (m.finish id r)

end

/-! ## Initialising an instance -/

/-- `USBMIDI9InitializeInterfaceProc` between the claim and the transaction.  The
    hook is left as the slot has it. -/
def initInstance (interfaceRef conn : ℕ) (inst : Instance) : Instance :=
  { inst with
    pb := { initParamBlock interfaceRef inst.pb with usbRefcon := kAllocRingState }
    interfaceRef := interfaceRef, bulkInPipe := 0, maxPacketSize := 0, readBufferBase := 0
    readBuffer := 0, ringBuffer := 0, ring := ⟨none, 0, 0⟩, lastReadStatus := usbNoErr, lastReadCount := 0
    callToken := 0, callInFlight := 0, transDepth := 0, removing := false, conn := conn }

end Usbmidi9
