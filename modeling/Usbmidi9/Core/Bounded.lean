/-
  USBMIDI9 — the receive stream with its queue, under any client.

  `rxMachine` is the stream of the source, fed and taken from in any order.
  `rxReference` says what it is for: the decoder of the stream's cable, whose
  messages wait in a queue of sixteen that drops what comes when it is full.
  `um9Rx_refines` says that the stream is this machine, that its indices stay in
  range and that its counters account for every packet.
-/
import Usbmidi9.Core.Decoder
import Usbmidi9.Lib.Fifo

namespace Usbmidi9

/-- The stream: `um9_rx_packet` and `um9_rx_message`. -/
def rxMachine : Mealy RxStream (BufferOp EventPacket) RxMsg where
  step s op := match op with
    | .feed p => ((um9RxPacket s p.bytes).1, [])
    | .take => match um9RxMessage s with
      | none => (s, [])
      | some (m, s') => (s', [m])

/-- The reference: the decoder of a cable and a bounded queue. -/
def rxReference (cable : ℕ) : Mealy (Bool × List Message) (BufferOp EventPacket) Message :=
  (decoder.only fun p => p.cable = cable).buffered um9RxQueue

/-- A stream and the reference, after the same operations. -/
structure RxRefines (cable : ℕ) (s : RxStream) (t : Bool × List Message) : Prop where
  wf : s.Wf
  cable : s.cable = cable
  inSysex : s.inSysex = t.1
  queue : s.queue = t.2.map Message.rx
  balanced : s.stats.packets = s.accounted

/-- A packet of another cable is counted twice and changes nothing else. -/
theorem um9RxPacket_misrouted {s : RxStream} {p : EventPacket} (hp : p.cable ≠ s.cable) :
    (um9RxPacket s p.bytes).1 = s.stat fun t =>
      { t with packets := t.packets + 1, droppedMisroute := t.droppedMisroute + 1 } := by
  simp only [um9RxPacket, um9PacketDecode_bytes]
  exact if_pos hp

theorem rxMachine_feed {cable : ℕ} {s : RxStream} {t : Bool × List Message}
    (h : RxRefines cable s t) (p : EventPacket) :
    RxRefines cable (rxMachine.step s (.feed p)).1 ((rxReference cable).step t (.feed p)).1 := by
  have hlen : s.queue.length = t.2.length := by rw [h.queue, List.length_map]
  by_cases hp : p.cable = cable
  · have hs := um9RxPacket_stepped h.wf (hp.trans h.cable.symm)
    have hstep : (rxReference cable).step t (.feed p) = (((decodeStep t.1 p).1,
        t.2 ++ (decodeStep t.1 p).2.take (um9RxQueue - t.2.length)), []) := by
      simp only [rxReference, Mealy.buffered, Mealy.only, if_pos hp]
      rfl
    rw [hstep]
    rw [h.inSysex] at hs
    refine ⟨hs.wf, hs.cable.trans h.cable, hs.inSysex, ?_, ?_⟩
    · rw [List.map_append, ← h.queue, List.map_take, ← hlen]
      exact hs.queue
    · have hbefore := h.balanced
      show (um9RxPacket s p.bytes).1.stats.packets = (um9RxPacket s p.bytes).1.accounted
      rw [hs.packets, hs.accounted]
      exact congrArg (· + 1) hbefore
  · have hstep : (rxReference cable).step t (.feed p) = (t, []) := by
      simp only [rxReference, Mealy.buffered, Mealy.only, if_neg hp]
      simp [fifo]
    have hmis : (rxMachine.step s (.feed p)).1 = s.stat fun t =>
        { t with packets := t.packets + 1, droppedMisroute := t.droppedMisroute + 1 } :=
      um9RxPacket_misrouted (h.cable ▸ hp)
    rw [hstep, hmis]
    refine ⟨h.wf.stat _, h.cable, h.inSysex, h.queue, ?_⟩
    have hbefore := h.balanced
    simp only [RxStream.accounted, RxStream.stat] at hbefore ⊢
    rw [hbefore]
    ac_rfl

theorem rxMachine_take {cable : ℕ} {s : RxStream} {t : Bool × List Message}
    (h : RxRefines cable s t) :
    (rxMachine.step s .take).2 = ((rxReference cable).step t .take).2.map Message.rx ∧
      RxRefines cable (rxMachine.step s .take).1 ((rxReference cable).step t .take).1 := by
  obtain ⟨b, q⟩ := t
  have hq := h.queue
  cases q with
  | nil =>
    have hnone : rxMachine.step s .take = (s, []) := by
      simp only [rxMachine, um9RxMessage_nil hq]
    rw [hnone]
    exact ⟨rfl, h⟩
  | cons m q =>
    obtain ⟨s', htake, hwf, hq', hcable, hsysex, hstats⟩ := um9RxMessage_cons h.wf hq
    have hsome : rxMachine.step s .take = (s', [m.rx]) := by
      simp only [rxMachine, htake]
    rw [hsome]
    refine ⟨rfl, hwf, hcable.trans h.cable, hsysex.trans h.inSysex, hq', ?_⟩
    have hcount : s.count = s'.count + 1 := by
      rw [← s.length_queue, ← s'.length_queue, hq, hq']
      rfl
    have hone : UInt32.ofNat (s'.count + 1) = UInt32.ofNat s'.count + 1 := UInt32.ofNat_add ..
    have hbefore := h.balanced
    simp only [RxStream.accounted, hcount, hone] at hbefore
    simp only [RxStream.accounted, hstats, hbefore]
    ac_rfl

/-- **The receive stream refines the reference machine.**  From a fresh stream, for all
    operations in any order: the messages that are taken are the reference's, the
    SysEx bit and the pending messages too, the queue stays within its bounds, and
    every packet is dropped for a reason that is counted, taken or pending. -/
theorem um9Rx_refines (s₀ : RxStream) (cable : ℕ) (ops : List (BufferOp EventPacket)) :
    let c := (um9RxInit s₀ cable).cable
    let s := rxMachine.final (um9RxInit s₀ cable) ops
    let t := (rxReference c).final (false, []) ops
    rxMachine.outs (um9RxInit s₀ cable) ops =
        ((rxReference c).outs (false, []) ops).map (List.map Message.rx) ∧
      s.inSysex = t.1 ∧ s.queue = t.2.map Message.rx ∧
      s.head < um9RxQueue ∧ s.count ≤ um9RxQueue ∧
      s.stats.packets = s.stats.droppedMisroute + s.stats.droppedMisc + s.stats.droppedCable +
        s.stats.droppedFull + s.stats.messages + UInt32.ofNat s.count := by
  intro c s t
  have hstep : ∀ (s : RxStream) (t : Bool × List Message) (op : BufferOp EventPacket), True →
      RxRefines c s t → (rxMachine.step s op).2 =
        (((rxReference c).mapOut Message.rx).step t op).2 ∧
          RxRefines c (rxMachine.step s op).1 (((rxReference c).mapOut Message.rx).step t op).1 := by
    intro s t op _ h
    cases op with
    | feed p => exact ⟨rfl, rxMachine_feed h p⟩
    | take => exact rxMachine_take h
  have hinit : RxRefines c (um9RxInit s₀ cable) (false, []) :=
    ⟨um9RxInit_wf s₀ cable, rfl, rfl, rfl, rfl⟩
  have hadm : ∀ op ∈ ops, True := fun _ _ => trivial
  obtain ⟨houts, hend⟩ := Mealy.sim hstep hadm hinit
  obtain ⟨hmap, hfinal⟩ := Mealy.mapOut_run (rxReference c) Message.rx (false, []) ops
  rw [hfinal] at hend
  exact ⟨houts.trans hmap, hend.inSysex, hend.queue, hend.wf.head, hend.wf.count, hend.balanced⟩

end Usbmidi9
