/-
  USBMIDI9 — the decoder a receive stream implements.

  `decoder` states what the receive half of `midi_stream.c` is for: one bit of
  state, and at most one message for each packet, with no queue in between.
  `um9Feed` is the stream of the source under a client that takes every pending
  message after each packet; `feed_eq_decoder` says that on packets of its own
  cable it is the decoder.
-/
import Usbmidi9.Core.Stream
import Usbmidi9.Lib.Mealy

namespace Usbmidi9

/-- A message as its consumer sees it. -/
structure Message where
  bytes : List UInt8
  sysex : SysexPos
deriving DecidableEq, Repr

/-- The valid bytes of a received message, with its tag. -/
def RxMsg.view (m : RxMsg) : Message := ⟨m.data.take m.len, m.sysex⟩

namespace EventPacket

/-- The MIDI bytes a packet carries, as many as its CIN says. -/
def payload (p : EventPacket) : List UInt8 := [p.b1, p.b2, p.b3].take (um9CinDataLength p.cin)

/-- The packet as `um9_packet_decode` returns it. -/
def decoded (p : EventPacket) : Um9Packet :=
  ⟨p.cable, p.cin, um9CinDataLength p.cin, [p.b1, p.b2, p.b3]⟩

theorem length_payload (p : EventPacket) : p.payload.length = um9CinDataLength p.cin := by
  simp only [payload, List.length_take, List.length_cons, List.length_nil]
  exact Nat.min_eq_left (um9CinDataLength_le p.cin)

/-- A row whose CIN announces as many bytes as it was given carries these. -/
theorem payload_ofNibbles {c n : ℕ} (hc : c < 16) (hn : n < 16) {data : List UInt8}
    (h : data.length = um9CinDataLength n) : (ofNibbles c n data).payload = data := by
  have h3 := um9CinDataLength_le n
  rw [payload, cin_ofNibbles hc hn, ← h]
  match data, h ▸ h3 with
  | [], _ | [_], _ | [_, _], _ | [_, _, _], _ => rfl

end EventPacket

/-- One packet: the next value of the SysEx bit, and the message. -/
def decodeStep (inSysex : Bool) (p : EventPacket) : Bool × List Message :=
  match p.cin with
  | cinMisc | cinCableEvent => (inSysex, [])
  | cinSysexStart => (true, [⟨p.payload, if inSysex then .mid else .start⟩])
  | cinSysexEnd1 | cinSysexEnd2 | cinSysexEnd3 =>
    (false, [⟨p.payload, if !inSysex ∧ p.b1 = 0xF0 then .none else .end_⟩])
  | _ => (inSysex, [⟨p.payload, .none⟩])

/-- The reference decoder of one cable. -/
def decoder : Mealy Bool EventPacket Message := ⟨decodeStep⟩

theorem decoder_cons {b b' : Bool} {p : EventPacket} {ms : List Message}
    (h : decodeStep b p = (b', ms)) (ps : List EventPacket) :
    decoder.outs b (p :: ps) = ms :: decoder.outs b' ps ∧
      decoder.final b (p :: ps) = decoder.final b' ps := by
  simp only [Mealy.outs_cons, Mealy.final_cons, decoder, h, and_self]

/-- Feed one packet, then take every pending message. -/
def um9Feed : Mealy RxStream EventPacket Message where
  step s p :=
    let r := um9RxTakeAll (um9RxPacket s p.bytes).1
    (r.1, r.2.map RxMsg.view)

/-! ### The step by CIN -/

section
variable {p : EventPacket} (b : Bool)

theorem decodeStep_drop (h : p.cin = cinMisc ∨ p.cin = cinCableEvent) : decodeStep b p = (b, []) := by
  rcases h with h | h <;> simp only [decodeStep, h]

theorem decodeStep_start (h : p.cin = cinSysexStart) :
    decodeStep b p = (true, [⟨p.payload, if b then .mid else .start⟩]) := by
  simp only [decodeStep, h]

theorem decodeStep_end (h : p.cin = cinSysexEnd1 ∨ p.cin = cinSysexEnd2 ∨ p.cin = cinSysexEnd3) :
    decodeStep b p = (false, [⟨p.payload, if !b ∧ p.b1 = 0xF0 then .none else .end_⟩]) := by
  rcases h with h | h | h <;> simp only [decodeStep, h]

theorem decodeStep_message (h : p.cin ∉ specialCins) :
    decodeStep b p = (b, [⟨p.payload, .none⟩]) := by
  obtain ⟨h0, h1, h4, h6, h7, h8⟩ := notMem_specialCins.1 h
  unfold decodeStep
  split
  exacts [absurd ‹_› h0, absurd ‹_› h1, absurd ‹_› h4, absurd ‹_› h6, absurd ‹_› h7,
    absurd ‹_› h8, rfl]

theorem length_decodeStep_le (p : EventPacket) : (decodeStep b p).2.length ≤ 1 := by
  unfold decodeStep
  split <;> simp

/-- A message carries its packet's bytes. -/
theorem decodeStep_bytes {m : Message} (h : m ∈ (decodeStep b p).2) : m.bytes = p.payload := by
  unfold decodeStep at h
  split at h <;> first
    | exact absurd h List.not_mem_nil
    | rw [List.mem_singleton.1 h]

end

/-! ## One packet -/

/-- The slot that holds a message: bytes beyond its length are zero. -/
def Message.rx (m : Message) : RxMsg :=
  ⟨[m.bytes.getD 0 0, m.bytes.getD 1 0, m.bytes.getD 2 0], m.bytes.length, m.sysex⟩

theorem rxMsgOf_eq_rx (a b c : UInt8) {len : ℕ} (h0 : 0 < len) (h3 : len ≤ 3) (x : SysexPos) :
    rxMsgOf [a, b, c] len x = Message.rx ⟨[a, b, c].take len, x⟩ := by
  interval_cases len <;> rfl

/-- A message no longer than its bytes. -/
def RxMsg.Sized (m : RxMsg) : Prop := m.len ≤ m.data.length

theorem RxMsg.Sized.length_view {m : RxMsg} (h : m.Sized) : m.view.bytes.length = m.len :=
  List.length_take_of_le h

namespace Message
variable {m : Message}

theorem sysex_rx (m : Message) : m.rx.sysex = m.sysex := rfl

theorem rx_sized (h : m.bytes.length ≤ 3) : m.rx.Sized := h

theorem view_rx (h : m.bytes.length ≤ 3) : m.rx.view = m := by
  obtain ⟨bytes, sysex⟩ := m
  rcases bytes with _ | ⟨a, _ | ⟨b, _ | ⟨c, _ | ⟨d, bytes⟩⟩⟩⟩
  · rfl
  · rfl
  · rfl
  · rfl
  · exact absurd h (by simp)

end Message

/-- A packet makes at most one message, of at most three bytes. -/
theorem decodeStep_length_le {b : Bool} {p : EventPacket} {m : Message}
    (h : m ∈ (decodeStep b p).2) : m.bytes.length ≤ 3 := by
  rw [decodeStep_bytes b h, p.length_payload]
  exact um9CinDataLength_le p.cin

/-- The packets that the counters account for: dropped for one of four reasons, taken
    or pending. -/
def RxStream.accounted (s : RxStream) : UInt32 :=
  s.stats.droppedMisroute + s.stats.droppedMisc + s.stats.droppedCable + s.stats.droppedFull +
    s.stats.messages + UInt32.ofNat s.count

/-- What a packet of the stream's cable does, once it is counted: the SysEx bit moves to
    `b`, and of the messages `ms` those that fit join the queue.  One more packet is
    accounted for. -/
structure Stepped (s s' : RxStream) (b : Bool) (ms : List Message) : Prop where
  wf : s'.Wf
  cable : s'.cable = s.cable
  inSysex : s'.inSysex = b
  queue : s'.queue = s.queue ++ (ms.map Message.rx).take (um9RxQueue - s.queue.length)
  packets : s'.stats.packets = s.stats.packets
  accounted : s'.accounted = s.accounted + 1
  full : s.count < um9RxQueue → s'.stats.droppedFull = s.stats.droppedFull
  misroute : s'.stats.droppedMisroute = s.stats.droppedMisroute

namespace Stepped
variable {s s' : RxStream} {b : Bool} {ms : List Message}

/-- The counters of odd SysEx packets account for nothing. -/
theorem of_malformedStart
    (h : Stepped (s.stat fun t => { t with malformedStart := t.malformedStart + 1 }) s' b ms) :
    Stepped s s' b ms :=
  ⟨h.wf, h.cable, h.inSysex, h.queue, h.packets, h.accounted, h.full, h.misroute⟩

theorem of_sysexEndNoEox
    (h : Stepped (s.stat fun t => { t with sysexEndNoEox := t.sysexEndNoEox + 1 }) s' b ms) :
    Stepped s s' b ms :=
  ⟨h.wf, h.cable, h.inSysex, h.queue, h.packets, h.accounted, h.full, h.misroute⟩

/-- Nor does the SysEx bit. -/
theorem of_setSysex {c : Bool} (h : Stepped { s with inSysex := c } s' b ms) :
    Stepped s s' b ms :=
  ⟨h.wf, h.cable, h.inSysex, h.queue, h.packets, h.accounted, h.full, h.misroute⟩

end Stepped

theorem rxDeliver_stepped {s : RxStream} (hs : s.Wf) (p : EventPacket) (h0 : p.cin ≠ cinMisc)
    (x : SysexPos) : Stepped s (rxDeliver s p.decoded x) s.inSysex [⟨p.payload, x⟩] := by
  have hpos := um9CinDataLength_pos h0 p.cin_lt
  rw [rxDeliver, if_neg (by simp only [EventPacket.decoded]; omega)]
  by_cases hc : um9RxQueue ≤ s.count
  · rw [um9RxEnqueue_full hc]
    refine ⟨hs.stat _, rfl, rfl, ?_, rfl, ?_, fun h => absurd hc (Nat.not_le.2 h), rfl⟩
    · rw [RxStream.length_queue, Nat.sub_eq_zero_of_le hc, List.take_zero, List.append_nil,
        RxStream.queue_stat]
    · simp only [RxStream.accounted, RxStream.stat]
      ac_rfl
  · have hlt : s.count < um9RxQueue := Nat.lt_of_not_le hc
    obtain ⟨hqueue, hcount, hstats⟩ := um9RxEnqueue_room hlt p.decoded.data p.decoded.length x
    obtain ⟨hcable, hsysex, -⟩ := um9RxEnqueue_frame s p.decoded.data p.decoded.length x
    refine ⟨um9RxEnqueue_wf hs .., hcable, hsysex, ?_, by rw [hstats], ?_,
      fun _ => by rw [hstats], by rw [hstats]⟩
    · rw [hqueue, RxStream.length_queue, List.map_singleton,
        List.take_of_length_le (by rw [List.length_singleton]; omega)]
      exact congrArg (fun m => s.queue ++ [m])
        (rxMsgOf_eq_rx p.b1 p.b2 p.b3 hpos (um9CinDataLength_le _) x)
    · have hone : UInt32.ofNat (s.count + 1) = UInt32.ofNat s.count + 1 := UInt32.ofNat_add ..
      simp only [RxStream.accounted, hstats, hcount, hone]
      ac_rfl

theorem rxSysexStart_stepped {s : RxStream} (hs : s.Wf) (p : EventPacket) (h0 : p.cin ≠ cinMisc) :
    Stepped s (rxSysexStart s p.decoded) true
      [⟨p.payload, if s.inSysex then .mid else .start⟩] := by
  unfold rxSysexStart
  cases hin : s.inSysex with
  | true => simpa [hin] using rxDeliver_stepped hs p h0 .mid
  | false =>
    simp only [Bool.false_eq_true, if_false]
    split_ifs
    · exact .of_malformedStart
        (.of_setSysex (rxDeliver_stepped ((hs.stat _).setSysex true) p h0 .start))
    · exact .of_setSysex (rxDeliver_stepped (hs.setSysex true) p h0 .start)

theorem rxSysexEnd_stepped {s : RxStream} (hs : s.Wf) (p : EventPacket) (h0 : p.cin ≠ cinMisc) :
    Stepped s (rxSysexEnd s p.decoded) false
      [⟨p.payload, if !s.inSysex ∧ p.b1 = 0xF0 then .none else .end_⟩] := by
  have hpos : 0 < p.decoded.length := um9CinDataLength_pos h0 p.cin_lt
  have htag : (if !s.inSysex ∧ 0 < p.decoded.length ∧ p.decoded.data.getD 0 0 = 0xF0
      then SysexPos.none else .end_) = if !s.inSysex ∧ p.b1 = 0xF0 then .none else .end_ := by
    simp only [hpos, true_and]; rfl
  simp only [rxSysexEnd, htag]
  split_ifs with h1 h2 h2
  all_goals first
    | exact .of_sysexEndNoEox
        (.of_setSysex (rxDeliver_stepped ((hs.stat _).setSysex false) p h0 _))
    | exact .of_setSysex (rxDeliver_stepped (hs.setSysex false) p h0 _)

/-- **One packet of the stream's cable.** -/
theorem rxDecoded_stepped {s : RxStream} (hs : s.Wf) {p : EventPacket} (hp : p.cable = s.cable) :
    Stepped s (rxDecoded s p.decoded) (decodeStep s.inSysex p).1 (decodeStep s.inSysex p).2 := by
  have hcab : p.decoded.cable = s.cable := hp
  have hcin : p.decoded.cin = p.cin := rfl
  rw [rxDecoded, if_neg (not_not.2 hcab), hcin]
  split
  · rw [decodeStep_drop _ (Or.inl ‹_›)]
    refine ⟨hs.stat _, rfl, rfl, by simp, rfl, ?_, fun _ => rfl, rfl⟩
    simp only [RxStream.accounted, RxStream.stat]
    ac_rfl
  · rw [decodeStep_drop _ (Or.inr ‹_›)]
    refine ⟨hs.stat _, rfl, rfl, by simp, rfl, ?_, fun _ => rfl, rfl⟩
    simp only [RxStream.accounted, RxStream.stat]
    ac_rfl
  · rename_i h
    rw [decodeStep_start _ h]
    exact rxSysexStart_stepped hs p (by rw [h]; decide)
  · rename_i h
    rw [decodeStep_end _ (Or.inl h)]
    exact rxSysexEnd_stepped hs p (by rw [h]; decide)
  · rename_i h
    rw [decodeStep_end _ (Or.inr (Or.inl h))]
    exact rxSysexEnd_stepped hs p (by rw [h]; decide)
  · rename_i h
    rw [decodeStep_end _ (Or.inr (Or.inr h))]
    exact rxSysexEnd_stepped hs p (by rw [h]; decide)
  · rename_i h0 h1 h4 h6 h7 h8
    rw [decodeStep_message _ (notMem_specialCins.2 ⟨h0, h1, h4, h6, h7, h8⟩)]
    exact rxDeliver_stepped hs p h0 .none

/-- **Feeding one packet** of the stream's cable. -/
theorem um9RxPacket_stepped {s : RxStream} (hs : s.Wf) {p : EventPacket}
    (hp : p.cable = s.cable) :
    Stepped (s.stat fun t => { t with packets := t.packets + 1 }) (um9RxPacket s p.bytes).1
      (decodeStep s.inSysex p).1 (decodeStep s.inSysex p).2 :=
  rxDecoded_stepped (hs.stat fun t => { t with packets := t.packets + 1 }) hp

/-- What feeding a packet does to a stream with room: the SysEx bit moves to
    `b`, the messages `ms` join the queue, and neither the overflow nor the
    misrouting counter moves. -/
structure Fed (s s' : RxStream) (b : Bool) (ms : List Message) : Prop where
  wf : s'.Wf
  cable : s'.cable = s.cable
  inSysex : s'.inSysex = b
  queue : s'.queue.map RxMsg.view = s.queue.map RxMsg.view ++ ms
  full : s'.stats.droppedFull = s.stats.droppedFull
  misroute : s'.stats.droppedMisroute = s.stats.droppedMisroute

theorem um9RxPacket_fed {s : RxStream} (hs : s.Wf) (hc : s.count < um9RxQueue) {p : EventPacket}
    (hp : p.cable = s.cable) :
    Fed s (um9RxPacket s p.bytes).1 (decodeStep s.inSysex p).1 (decodeStep s.inSysex p).2 := by
  have h := um9RxPacket_stepped hs hp
  refine ⟨h.wf, h.cable, h.inSysex, ?_, h.full hc, h.misroute⟩
  have hone : (decodeStep s.inSysex p).2.length ≤ 1 := length_decodeStep_le s.inSysex p
  rw [h.queue, RxStream.queue_stat, RxStream.length_queue,
    List.take_of_length_le (by rw [List.length_map]; omega), List.map_append, List.map_map]
  refine congrArg _ ((List.map_congr_left ?_).trans (List.map_id _))
  intro m hm
  exact Message.view_rx (decodeStep_length_le hm)

/-- **The pending messages** have the lengths they say. -/
theorem um9RxPacket_sized {s : RxStream} (hs : s.Wf) (hq : ∀ m ∈ s.queue, m.Sized)
    {p : EventPacket} (hp : p.cable = s.cable) :
    ∀ m ∈ (um9RxPacket s p.bytes).1.queue, m.Sized := by
  intro m hm
  rw [(um9RxPacket_stepped hs hp).queue, RxStream.queue_stat] at hm
  rcases List.mem_append.1 hm with hm | hm
  · exact hq m hm
  · obtain ⟨msg, hmsg, rfl⟩ := List.mem_map.1 (List.mem_of_mem_take hm)
    exact Message.rx_sized (decodeStep_length_le hmsg)

/-! ## Streams of packets -/

/-- A stream between two packets: nothing is pending. -/
structure Idle (s : RxStream) (cable : ℕ) : Prop where
  wf : s.Wf
  cable : s.cable = cable
  count : s.count = 0

theorem um9RxInit_idle (s : RxStream) {c : ℕ} (hc : c ≤ um9MaxCable) : Idle (um9RxInit s c) c :=
  ⟨um9RxInit_wf s c, um9RxInit_cable s hc, rfl⟩

/-- Feeding an idle stream a packet of its cable and taking everything is one
    step of the decoder. -/
theorem um9Feed_step {s : RxStream} {c : ℕ} (hs : Idle s c) {p : EventPacket} (hp : p.cable = c) :
    (um9Feed.step s p).2 = (decodeStep s.inSysex p).2 ∧
      Idle (um9Feed.step s p).1 c ∧
      (um9Feed.step s p).1.inSysex = (decodeStep s.inSysex p).1 ∧
      (um9Feed.step s p).1.stats.droppedFull = s.stats.droppedFull ∧
      (um9Feed.step s p).1.stats.droppedMisroute = s.stats.droppedMisroute := by
  have hroom : s.count < um9RxQueue := by rw [hs.count]; decide
  have hf := um9RxPacket_fed hs.wf hroom (hp.trans hs.cable.symm)
  obtain ⟨h1, h2, h3, h4, h5, k, h6⟩ := um9RxTakeAll_spec hf.wf
  have hq : s.queue = [] := RxStream.queue_eq_nil.2 hs.count
  refine ⟨?_, ⟨h2, ?_, RxStream.queue_eq_nil.1 h3⟩, h5.trans hf.inSysex, ?_, ?_⟩
  · show ((um9RxTakeAll _).2.map RxMsg.view) = _
    rw [h1, hf.queue, hq]; rfl
  · exact h4.trans (hf.cable.trans hs.cable)
  · show (um9RxTakeAll _).1.stats.droppedFull = _
    rw [h6]; exact hf.full
  · show (um9RxTakeAll _).1.stats.droppedMisroute = _
    rw [h6]; exact hf.misroute

/-- **The stream implements the decoder.**  On packets of its cable, with every
    pending message taken after each packet, an idle stream emits what the
    decoder emits and ends with the decoder's SysEx bit. -/
theorem feed_eq_decoder {s : RxStream} {c : ℕ} (hs : Idle s c) {ps : List EventPacket}
    (hp : ∀ p ∈ ps, p.cable = c) :
    um9Feed.outs s ps = decoder.outs s.inSysex ps ∧
      Idle (um9Feed.final s ps) c ∧
      (um9Feed.final s ps).inSysex = decoder.final s.inSysex ps := by
  have hstep : ∀ s b (p : EventPacket), p.cable = c → Idle s c ∧ s.inSysex = b →
      (um9Feed.step s p).2 = (decoder.step b p).2 ∧
        Idle (um9Feed.step s p).1 c ∧ (um9Feed.step s p).1.inSysex = (decoder.step b p).1 := by
    rintro s b p hp ⟨hs, rfl⟩
    obtain ⟨h1, h2, h3, -⟩ := um9Feed_step hs hp
    exact ⟨h1, h2, h3⟩
  obtain ⟨ho, hr⟩ := Mealy.sim hstep hp ⟨hs, rfl⟩
  exact ⟨ho, hr.1, hr.2⟩

end Usbmidi9
