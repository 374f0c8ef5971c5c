/-
  USBMIDI9 — the per-cable receive stream (`core/midi_stream.h`,
  `core/midi_stream.c`, receive half).

  `um9RxInit`, `um9RxEnqueue`, `um9RxPacket` and `um9RxMessage` are the
  functions of the source.  The pending queue is a circular buffer of
  `UM9_RX_QUEUE` slots; `RxStream.queue` lists what is in it, and each operation
  has one lemma saying what it does to that list.

  `um9RxTakeAll` is the loop around `um9RxMessage` that every client runs.
-/
import Usbmidi9.Core.Packets
import Usbmidi9.Lib.Window

namespace Usbmidi9

/-- `UM9_RX_QUEUE`. -/
abbrev um9RxQueue : ℕ := 16

/-- `UM9_SYSEX_*`: the SysEx position of a received message. -/
inductive SysexPos where
  | none | start | mid | end_
deriving DecidableEq, Repr, Inhabited

/-- `um9_rx_stats`; the counters are 32 bits wide. -/
structure RxStats where
  packets : UInt32
  messages : UInt32
  droppedMisc : UInt32
  droppedCable : UInt32
  droppedFull : UInt32
  droppedMisroute : UInt32
  malformedStart : UInt32
  sysexEndNoEox : UInt32
deriving DecidableEq, Repr, Inhabited

/-- `um9_rx_msg`: one pending message. -/
structure RxMsg where
  data : List UInt8
  len : ℕ
  sysex : SysexPos
deriving DecidableEq, Repr, Inhabited

/-- `um9_rx_stream`. -/
structure RxStream where
  cable : ℕ
  inSysex : Bool
  head : ℕ
  count : ℕ
  pending : ℕ → RxMsg
  stats : RxStats
deriving Inhabited

/-- `um9_rx_init`: the data bytes of the pending slots are left as they are. -/
def um9RxInit (s : RxStream) (cable : ℕ) : RxStream where
  cable := if cable ≤ um9MaxCable then cable else 0
  inSysex := false
  head := 0
  count := 0
  pending i := { s.pending i with len := 0, sysex := .none }
  stats := ⟨0, 0, 0, 0, 0, 0, 0, 0⟩

/-- The slot `um9_rx_enqueue` writes: bytes beyond the length are zero. -/
def rxMsgOf (data : List UInt8) (len : ℕ) (sysex : SysexPos) : RxMsg :=
  ⟨[data.getD 0 0, if 1 < len then data.getD 1 0 else 0,
    if 2 < len then data.getD 2 0 else 0], len, sysex⟩

/-- Update the counters. -/
def RxStream.stat (s : RxStream) (f : RxStats → RxStats) : RxStream := { s with stats := f s.stats }

/-- `um9_rx_enqueue`: drop the newest message when the queue is full. -/
def um9RxEnqueue (s : RxStream) (data : List UInt8) (len : ℕ) (sysex : SysexPos) : RxStream :=
  if um9RxQueue ≤ s.count then
    s.stat fun t => { t with droppedFull := t.droppedFull + 1 }
  else
    let tail := (s.head + s.count) % um9RxQueue
    { s with
      pending := Function.update s.pending tail (rxMsgOf data len sysex)
      count := s.count + 1 }

/-- The end of `um9_rx_packet`: a packet without MIDI bytes enqueues nothing. -/
def rxDeliver (s : RxStream) (pkt : Um9Packet) (sysex : SysexPos) : RxStream :=
  if pkt.length = 0 then s else um9RxEnqueue s pkt.data pkt.length sysex

/-- `case UM9_CIN_SYSEX_START`: a start without F0 is counted and passes. -/
def rxSysexStart (s : RxStream) (pkt : Um9Packet) : RxStream :=
  if s.inSysex then rxDeliver s pkt .mid
  else
    let s := if pkt.data.getD 0 0 ≠ 0xF0 then
        s.stat fun t => { t with malformedStart := t.malformedStart + 1 }
      else s
    rxDeliver { s with inSysex := true } pkt .start

/-- `case UM9_CIN_SYSEX_END_1`, `_2`, `_3`: an end without F7 is counted and
    passes; a whole run in one end packet is a complete message. -/
def rxSysexEnd (s : RxStream) (pkt : Um9Packet) : RxStream :=
  let whole := !s.inSysex ∧ 0 < pkt.length ∧ pkt.data.getD 0 0 = 0xF0
  let s := if 0 < pkt.length ∧ pkt.data.getD (pkt.length - 1) 0 ≠ 0xF7 then
      s.stat fun t => { t with sysexEndNoEox := t.sysexEndNoEox + 1 }
    else s
  rxDeliver { s with inSysex := false } pkt (if whole then .none else .end_)

/-- `um9_rx_packet` after its argument checks and its decoding. -/
def rxDecoded (s : RxStream) (pkt : Um9Packet) : RxStream :=
  if pkt.cable ≠ s.cable then
    s.stat fun t => { t with droppedMisroute := t.droppedMisroute + 1 }
  else match pkt.cin with
    | cinMisc => s.stat fun t => { t with droppedMisc := t.droppedMisc + 1 }
    | cinCableEvent => s.stat fun t => { t with droppedCable := t.droppedCable + 1 }
    | cinSysexStart => rxSysexStart s pkt
    | cinSysexEnd1 | cinSysexEnd2 | cinSysexEnd3 => rxSysexEnd s pkt
    | _ => rxDeliver s pkt .none

/-- `um9_rx_packet`: returns 0 only when the buffer is not four bytes long. -/
def um9RxPacket (s : RxStream) (buf : List UInt8) : RxStream × Bool :=
  match um9PacketDecode buf with
  | none => (s, false)
  | some pkt => (rxDecoded (s.stat fun t => { t with packets := t.packets + 1 }) pkt, true)

/-- The state after a take. -/
def rxPop (s : RxStream) : RxStream :=
  { s with
    head := (s.head + 1) % um9RxQueue
    count := s.count - 1
    stats.messages := s.stats.messages + 1 }

/-- `um9_rx_message`: the oldest pending message, if there is one. -/
def um9RxMessage (s : RxStream) : Option (RxMsg × RxStream) :=
  if s.count = 0 then none else some (s.pending s.head, rxPop s)

/-- The client's loop `while (um9_rx_message(s, …) == 1)`.  `n` bounds the
    takes; the pending count is always enough (`um9RxTakeAll_spec`). -/
def um9RxTake : ℕ → RxStream → RxStream × List RxMsg
  | 0, s => (s, [])
  | n + 1, s => match um9RxMessage s with
    | none => (s, [])
    | some (m, s') => let r := um9RxTake n s'; (r.1, m :: r.2)

/-- Take every pending message. -/
def um9RxTakeAll (s : RxStream) : RxStream × List RxMsg := um9RxTake s.count s

/-! ## The pending queue -/

namespace RxStream

/-- The queue indices are in range. -/
structure Wf (s : RxStream) : Prop where
  head : s.head < um9RxQueue
  count : s.count ≤ um9RxQueue

/-- The pending messages, oldest first. -/
def queue (s : RxStream) : List RxMsg := window s.pending um9RxQueue s.head s.count

@[simp] theorem length_queue (s : RxStream) : s.queue.length = s.count := length_window ..

@[simp] theorem queue_stat (s : RxStream) (f : RxStats → RxStats) : (s.stat f).queue = s.queue := rfl

@[simp] theorem count_stat (s : RxStream) (f : RxStats → RxStats) : (s.stat f).count = s.count := rfl

theorem Wf.stat {s : RxStream} (h : s.Wf) (f : RxStats → RxStats) : (s.stat f).Wf :=
  ⟨h.head, h.count⟩

theorem Wf.setSysex {s : RxStream} (h : s.Wf) (b : Bool) : Wf { s with inSysex := b } :=
  ⟨h.head, h.count⟩

theorem queue_eq_nil {s : RxStream} : s.queue = [] ↔ s.count = 0 := by
  rw [← List.length_eq_zero_iff, length_queue]

end RxStream

theorem um9RxInit_wf (s : RxStream) (c : ℕ) : (um9RxInit s c).Wf :=
  ⟨by simp [um9RxInit], by simp [um9RxInit]⟩

theorem um9RxInit_cable (s : RxStream) {c : ℕ} (hc : c ≤ um9MaxCable) :
    (um9RxInit s c).cable = c := if_pos hc

/-- Enqueueing into a queue with room appends. -/
theorem um9RxEnqueue_room {s : RxStream} (h : s.count < um9RxQueue) (data : List UInt8)
    (len : ℕ) (sysex : SysexPos) :
    (um9RxEnqueue s data len sysex).queue = s.queue ++ [rxMsgOf data len sysex] ∧
      (um9RxEnqueue s data len sysex).count = s.count + 1 ∧
        (um9RxEnqueue s data len sysex).stats = s.stats := by
  rw [um9RxEnqueue, if_neg (by omega)]
  refine ⟨?_, rfl, rfl⟩
  exact window_fill [rxMsgOf data len sysex] (by simpa using h)

theorem um9RxEnqueue_full {s : RxStream} (h : um9RxQueue ≤ s.count) (data : List UInt8)
    (len : ℕ) (sysex : SysexPos) :
    um9RxEnqueue s data len sysex = s.stat fun t => { t with droppedFull := t.droppedFull + 1 } :=
  if_pos h

/-- Enqueueing touches the queue and the overflow counter only. -/
theorem um9RxEnqueue_frame (s : RxStream) (data : List UInt8) (len : ℕ) (sysex : SysexPos) :
    (um9RxEnqueue s data len sysex).cable = s.cable ∧
      (um9RxEnqueue s data len sysex).inSysex = s.inSysex ∧
        (um9RxEnqueue s data len sysex).head = s.head := by
  unfold um9RxEnqueue; split_ifs <;> exact ⟨rfl, rfl, rfl⟩

theorem um9RxEnqueue_wf {s : RxStream} (h : s.Wf) (data : List UInt8) (len : ℕ)
    (sysex : SysexPos) : (um9RxEnqueue s data len sysex).Wf := by
  by_cases hc : um9RxQueue ≤ s.count
  · rw [um9RxEnqueue_full hc]; exact h.stat _
  · have hroom := um9RxEnqueue_room (Nat.lt_of_not_le hc) data len sysex
    exact ⟨by rw [(um9RxEnqueue_frame ..).2.2]; exact h.head, by rw [hroom.2.1]; omega⟩

theorem um9RxMessage_nil {s : RxStream} (h : s.queue = []) : um9RxMessage s = none :=
  if_pos (RxStream.queue_eq_nil.1 h)

/-- Taking a message removes the head of the queue. -/
theorem um9RxMessage_cons {s : RxStream} (hs : s.Wf) {m : RxMsg} {q : List RxMsg}
    (h : s.queue = m :: q) :
    ∃ s', um9RxMessage s = some (m, s') ∧ s'.Wf ∧ s'.queue = q ∧ s'.cable = s.cable ∧
      s'.inSysex = s.inSysex ∧
        s'.stats = { s.stats with messages := s.stats.messages + 1 } := by
  have hc : s.count = q.length + 1 := by rw [← RxStream.length_queue, h]; rfl
  rw [RxStream.queue, hc, window_succ, List.cons.injEq, Nat.mod_eq_of_lt hs.head] at h
  refine ⟨rxPop s, ?_, ⟨Nat.mod_lt _ (by decide), ?_⟩, ?_, rfl, rfl, rfl⟩
  · rw [um9RxMessage, if_neg (by omega), h.1]
  · have := hs.count; simp only [rxPop]; omega
  · simp only [RxStream.queue, rxPop, window_mod _ _ dvd_rfl, hc, Nat.add_sub_cancel]
    exact h.2

/-- **Taking all** returns the queue and leaves it empty. -/
theorem um9RxTake_spec {n : ℕ} {s : RxStream} (hs : s.Wf) (hn : s.count ≤ n) :
    (um9RxTake n s).2 = s.queue ∧ (um9RxTake n s).1.Wf ∧ (um9RxTake n s).1.queue = [] ∧
      (um9RxTake n s).1.cable = s.cable ∧ (um9RxTake n s).1.inSysex = s.inSysex ∧
        ∃ k, (um9RxTake n s).1.stats = { s.stats with messages := k } := by
  induction n generalizing s with
  | zero =>
    have h0 : s.queue = [] := RxStream.queue_eq_nil.2 (by omega)
    exact ⟨h0.symm, hs, h0, rfl, rfl, _, rfl⟩
  | succ n ih =>
    cases hq : s.queue with
    | nil =>
      simp only [um9RxTake, um9RxMessage_nil hq]
      exact ⟨trivial, hs, hq, trivial, trivial, _, rfl⟩
    | cons m q =>
      obtain ⟨s', he, hw, hq', hcab, hin, hst⟩ := um9RxMessage_cons hs hq
      have hc' : s'.count ≤ n := by
        have h1 := s'.length_queue
        have h2 := s.length_queue
        rw [hq'] at h1; rw [hq] at h2
        simp only [List.length_cons] at h2; omega
      obtain ⟨h1, h2, h3, h4, h5, k, h6⟩ := ih hw hc'
      simp only [um9RxTake, he]
      exact ⟨by rw [h1, hq'], h2, h3, h4.trans hcab, h5.trans hin, k, by rw [h6, hst]⟩

theorem um9RxTakeAll_spec {s : RxStream} (hs : s.Wf) :
    (um9RxTakeAll s).2 = s.queue ∧ (um9RxTakeAll s).1.Wf ∧ (um9RxTakeAll s).1.queue = [] ∧
      (um9RxTakeAll s).1.cable = s.cable ∧ (um9RxTakeAll s).1.inSysex = s.inSysex ∧
        ∃ k, (um9RxTakeAll s).1.stats = { s.stats with messages := k } :=
  um9RxTake_spec hs le_rfl

end Usbmidi9
