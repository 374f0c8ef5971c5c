/-
  USBMIDI9 — the receive path of the shim (`oms/oms_rx.c`).

  `omsRxDrain` empties the ring of one interface in chunks of 64 bytes; each
  chunk is cut into Event Packets, which go to the streams of their cables.
  `omsRxEvent` is the push hook.
-/
import Usbmidi9.Oms.State

namespace Usbmidi9

/-- The continuation flags of a message. -/
def omsRxFlags : SysexPos → UInt8
  | .start => omsStartCont
  | .mid => omsMidCont
  | .end_ => omsEndCont
  | .none => omsNoCont

/-- `oms_rx_build_packet`. -/
def omsRxBuildPacket (ioRefNum : Int16) (m : RxMsg) : OmsPacket where
  flags := omsRxFlags m.sysex
  len := UInt8.ofNat m.len
  srcIORefNum := ioRefNum.toUInt16
  appConnRefCon := 0
  data := (List.range 4).map fun i => if i < m.len then m.data.getD i 0 else 0

/-- `oms_rx_deliver` of the messages of one Event Packet. -/
def omsRxDeliver (s : Oms) (source : List RingByte) (ioRefNum : Int16) (ms : List RxMsg) : Oms :=
  if s.g.rxRoutine = 0 then s
  else s.log (ms.map fun m =>
    .received source s.session (omsRxBuildPacket ioRefNum m) ioRefNum)

/-- One Event Packet on the port of its cable: the port, and the messages taken. -/
def omsRxPortPacket (port : OmsPort) (cable : ℕ) (bytes : List UInt8) : OmsPort × List RxMsg :=
  let port := port.open_ cable
  match um9RxPacket port.rx bytes with
  | (rx, false) => ({ port with rx := rx }, [])
  | (rx, true) => ({ port with rx := (um9RxTakeAll rx).1 }, (um9RxTakeAll rx).2)

/-- One Event Packet of a chunk. -/
def omsRxPacket (i : ℕ) (deliver : Bool) (s : Oms) (b0 b1 b2 b3 : RingByte) : Oms :=
  let cable := (EventPacket.mk b0.val b1.val b2.val b3.val).cable
  if omsCables ≤ cable then s.upd fun g => { g with rxDropped := g.rxDropped + 1 }
  else
    let r := omsRxPortPacket (s.port i cable) cable [b0.val, b1.val, b2.val, b3.val]
    let s := (s.setPort i cable r.1).upd fun g =>
      { g with rxMessages := g.rxMessages + UInt32.ofNat r.2.length }
    if deliver = false ∨ r.1.ioRefNum < 0 then s
    else omsRxDeliver s [b0, b1, b2, b3] r.1.ioRefNum r.2

/-- The loop over the Event Packets of a chunk; what does not fill one is
    counted. -/
def omsRxPackets (i : ℕ) (deliver : Bool) : Oms → List RingByte → Oms
  | s, b0 :: b1 :: b2 :: b3 :: rest =>
    omsRxPackets i deliver (omsRxPacket i deliver s b0 b1 b2 b3) rest
  | s, rest => s.upd fun g => { g with rxDropped := g.rxDropped + UInt32.ofNat rest.length }

/-- One chunk. -/
def omsRxChunk (i : ℕ) (deliver : Bool) (s : Oms) (chunk : List RingByte) : Oms :=
  omsRxPackets i deliver
    (s.upd fun g => { g with rxPackets := g.rxPackets + UInt32.ofNat (chunk.length / 4) }) chunk

/-- `oms_rx_drain`: the loop around `dequeueBytes` on the bound driver's ring. -/
def omsRxDrain (i : ℕ) (deliver : Bool) (s : Oms) : Oms :=
  if omsMaxInterfaces ≤ i then s
  else match s.g.table with
    | none => s
    | some t =>
      if (s.g.ifaces i).valid = false then s
      else if (s.drivers t).count ≤ i then s
      else
        let ring := (s.drivers t).rings i
        let r := drainRing ringSize omsDequeueChunk (omsRxChunk i deliver)
          (um9RingUsed ringSize ring + 1) ring s
        r.2.setRing t i r.1

/-- `oms_rx_drain_all`. -/
def omsRxDrainAll (deliver : Bool) (s : Oms) : Oms :=
  if s.g.table = none then s
  else (List.range omsMaxInterfaces).foldl
    (fun s i => if (s.g.ifaces i).valid then omsRxDrain i deliver s else s) s

/-- `oms_rx_event`. -/
def omsRxEvent (i : ℕ) (s : Oms) : Oms :=
  let s := s.upd fun g => { g with events := g.events + 1 }
  omsRxDrain i s.g.midiStarted s

end Usbmidi9
