/-
  USBMIDI9 — what OMS hears of a cable.

  `listener` is the receive path of one cable of an attached interface as OMS
  sees it: it remembers whether MIDI runs, the refnum of the port and whether the
  cable is inside a SysEx, and it knows nothing of rings, chunks, hooks or other
  cables.

  `cable_refines` is the result: from the start of MIDI until the class driver
  goes away, whatever else happens, a cable is heard as the listener says.  No
  byte of a transfer is lost, repeated, reordered or taken for another cable.
-/
import Usbmidi9.Oms.Backlog
import Usbmidi9.Oms.Rechunk
import Usbmidi9.Oms.Refnums

namespace Usbmidi9

/-! ## The listener -/

/-- The Event Packets of a transfer. -/
def transferPackets : List UInt8 → List EventPacket
  | b0 :: b1 :: b2 :: b3 :: rest => ⟨b0, b1, b2, b3⟩ :: transferPackets rest
  | _ => []

/-- What a cable of an attached interface remembers between events. -/
structure Listener where
  running : Bool
  refnum : Int16
  inSysex : Bool
deriving DecidableEq

/-- What a cable gets to know. -/
inductive ListenerInput where
  | packets (ps : List EventPacket)
  | refnum (ioRefNum : Int16)
  | start
  | stop

/-- A cable as OMS hears it. -/
def listener : Mealy Listener ListenerInput (OmsPacket × Int16) where
  step l
    | .packets ps => ({ l with inSysex := decoder.final l.inSysex ps },
        if l.running then expected l.refnum l.inSysex ps else [])
    | .refnum ioRefNum => ({ l with refnum := ioRefNum, inSysex := false }, [])
    | .start => ({ l with running := true, inSysex := false }, [])
    | .stop => ({ l with running := false }, [])

/-- The packets of a cable in a transfer, of which no more is stored than fits
    into the ring. -/
def cablePackets (c : ℕ) (data : List UInt8) : List EventPacket :=
  (transferPackets (data.take ringSize)).filter fun p => p.cable = c

/-- What an event is to cable `c` of interface `i`, its class driver being `t`. -/
def OmsEvent.inputs (t i c : ℕ) : OmsEvent → List ListenerInput
  | .completion t' i' data => if t' = t ∧ i' = i then [.packets (cablePackets c data)] else []
  | .message (.setPortReceiveRefNum portID ioRefNum) =>
    if portID.bind OmsPortID.port? = some (i + 1, c) then [.refnum ioRefNum] else []
  | .message (.startMIDI2 _) => [.start]
  | .message .stopMIDI => [.stop]
  | _ => []

/-- The events that leave class driver `t` attached. -/
def OmsEvent.Attached (t : ℕ) (s : Oms) : OmsEvent → Prop
  | .message (.init _) | .message .dispose => False
  | .notification (.remove deviceRef) => deviceRef ≠ s.g.deviceRef
  | .removed t' => t' ≠ t
  | _ => True

instance (t : ℕ) (s : Oms) (e : OmsEvent) : Decidable (e.Attached t s) := by
  unfold OmsEvent.Attached
  split <;> infer_instance

/-- The shim's part of the listener. -/
def Oms.cable (s : Oms) (i c : ℕ) : Listener :=
  ⟨s.g.midiStarted, (s.port i c).refnum, ((s.port i c).open_ c).rx.inSysex⟩

/-- What an event hands to OMS for a cable of interface `i`: everything, but what
    the transfers of other interfaces do. -/
def OmsEvent.heard (t i c : ℕ) (s s' : Oms) : OmsEvent → List (OmsPacket × Int16)
  | .completion t' i' _ =>
    if t' = t ∧ i' = i then receivedOn c (s'.trace.drop s.trace.length) else []
  | _ => receivedOn c (s'.trace.drop s.trace.length)

/-- What a run hands to OMS for a cable of interface `i`. -/
def heardAlong (t i c : ℕ) : Oms → List OmsEvent → List (OmsPacket × Int16)
  | _, [] => []
  | s, e :: es => match omsStep s e with
    | none => []
    | some s' => e.heard t i c s s' ++ heardAlong t i c s' es

/-! ## The packets of a transfer -/

theorem packet_frames (l : List RingByte) :
    (frames l).map RxFrame.packet = transferPackets (l.map RingByte.val) := by
  fun_induction frames l with
  | case1 b0 b1 b2 b3 rest ih =>
    rw [List.map_cons, ih]
    rfl
  | case2 l hl =>
    rcases l with _ | ⟨a, _ | ⟨b, _ | ⟨d, _ | ⟨e, rest⟩⟩⟩⟩
    · rfl
    · rfl
    · rfl
    · rfl
    · exact absurd rfl (hl a b d e rest)

theorem packet_onCable (c : ℕ) (fs : List RxFrame) :
    (onCable c fs).map RxFrame.packet = (fs.map RxFrame.packet).filter fun p => p.cable = c := by
  rw [onCable, List.filter_map]
  rfl

theorem val_stamp (s : Oms) (data : List UInt8) : (s.stamp data).map RingByte.val = data := by
  rw [Oms.stamp, List.map_map]
  exact List.map_id data

theorem expected_append (ioRefNum : Int16) (b : Bool) (ps qs : List EventPacket) :
    expected ioRefNum b (ps ++ qs) =
      expected ioRefNum b ps ++ expected ioRefNum (decoder.final b ps) qs := by
  unfold expected
  split_ifs
  · rfl
  · rw [Mealy.out_append, List.map_append]

/-! ## A port of an attached interface -/

section
variable {c : ℕ} {fs : List RxFrame} {p : OmsPort}

/-- Where a port ends that got the packets of its cable. -/
theorem rxPort_final (deliver : Bool) (hc : c < omsCables)
    (hfs : ∀ f ∈ fs, f.packet.cable = c) (hp : p.Ok c) :
    ((rxPort deliver c).final p fs).refnum = p.refnum ∧
      (((rxPort deliver c).final p fs).open_ c).rx.inSysex =
        decoder.final (p.open_ c).rx.inSysex (fs.map RxFrame.packet) := by
  induction fs generalizing p with
  | nil => exact ⟨rfl, rfl⟩
  | cons f fs ih =>
    obtain ⟨hv, hok, href, hin, -, -⟩ := omsRxPortPacket_spec hp hc (hfs f List.mem_cons_self)
    obtain ⟨h1, h2⟩ := ih (fun f' hf => hfs f' (List.mem_cons_of_mem _ hf)) hok
    refine ⟨?_, ?_⟩
    · rw [Mealy.final_cons]
      exact h1.trans ((OmsPort.refnum_of_valid hv).trans href)
    · rw [Mealy.final_cons, List.map_cons, Mealy.final_cons]
      refine h2.trans ?_
      rw [OmsPort.open_of_valid hv, hin]
      rfl

end

/-- Interface `i` of class driver `t` is attached: a drain reads its ring, and the
    push hook is called after a transfer. -/
structure Oms.Attached (s : Oms) (t i c : ℕ) : Prop where
  drains : s.Drains i t
  hook : (s.drivers t).hooks i = true
  routine : s.g.rxRoutine ≠ 0
  ring : ((s.drivers t).rings i).Wf ringSize
  port : (s.port i c).Ok c

/-- Between events nothing waits in the ring. -/
structure Oms.Listening (s : Oms) (t i c : ℕ) : Prop extends s.Attached t i c where
  empty : ((s.drivers t).rings i).queue ringSize = []

/-- Nothing changes that cable `c` of interface `i` depends on. -/
structure Unmoved (t i c : ℕ) (s s' : Oms) : Prop where
  table : s'.g.table = s.g.table
  valid : (s.g.ifaces i).valid = true → (s'.g.ifaces i).valid = true
  count : (s.drivers t).count ≤ (s'.drivers t).count
  hook : i < (s.drivers t).count → (s.drivers t).hooks i = true → (s'.drivers t).hooks i = true
  routine : s'.g.rxRoutine = s.g.rxRoutine
  started : s'.g.midiStarted = s.g.midiStarted
  ring : i < (s.drivers t).count → (s'.drivers t).rings i = (s.drivers t).rings i
  rx : (s'.port i c).rx = (s.port i c).rx
  inUse : (s'.port i c).valid = (s.port i c).valid
  ioRefNum : (s'.port i c).ioRefNum = (s.port i c).ioRefNum

section
variable {t i c : ℕ} {s s' s'' : Oms}

namespace Unmoved

theorem refl (s : Oms) : Unmoved t i c s s :=
  ⟨rfl, id, le_refl _, fun _ => id, rfl, rfl, fun _ => rfl, rfl, rfl, rfl⟩

theorem trans (h : Unmoved t i c s s') (h' : Unmoved t i c s' s'') : Unmoved t i c s s'' := by
  refine ⟨h'.table.trans h.table, fun hv => h'.valid (h.valid hv), h.count.trans h'.count, ?_,
    h'.routine.trans h.routine, h'.started.trans h.started, ?_, h'.rx.trans h.rx,
    h'.inUse.trans h.inUse, h'.ioRefNum.trans h.ioRefNum⟩
  · intro hi hh
    exact h'.hook (hi.trans_le h.count) (h.hook hi hh)
  · intro hi
    exact (h'.ring (hi.trans_le h.count)).trans (h.ring hi)

theorem attached (h : Unmoved t i c s s') (hs : s.Attached t i c) : s'.Attached t i c := by
  have hi := hs.drains.count
  refine ⟨⟨hs.drains.lt, h.table.trans hs.drains.table, h.valid hs.drains.valid,
    hi.trans_le h.count⟩, h.hook hi hs.hook, ?_, ?_, ?_⟩
  · rw [h.routine]
    exact hs.routine
  · rw [h.ring hi]
    exact hs.ring
  · exact ⟨by rw [h.rx]; exact hs.port.count, by rw [h.rx, h.inUse]; exact hs.port.idle⟩

theorem listening (h : Unmoved t i c s s') (hs : s.Listening t i c) : s'.Listening t i c := by
  refine ⟨h.attached hs.toAttached, ?_⟩
  rw [h.ring hs.drains.count]
  exact hs.empty

theorem cable (h : Unmoved t i c s s') : s'.cable i c = s.cable i c := by
  have hopen : ((s'.port i c).open_ c).rx.inSysex = ((s.port i c).open_ c).rx.inSysex := by
    unfold OmsPort.open_
    rw [h.inUse]
    split_ifs
    · rw [h.rx]
    · rfl
  have href : (s'.port i c).refnum = (s.port i c).refnum := by
    unfold OmsPort.refnum
    rw [h.inUse, h.ioRefNum]
  rw [Oms.cable, Oms.cable, h.started, hopen, href]

/-- A change of other fields of `g_oms`. -/
theorem upd (s : Oms) {f : OmsGlobals → OmsGlobals} (hi : (f s.g).ifaces = s.g.ifaces)
    (ht : (f s.g).table = s.g.table) (hr : (f s.g).rxRoutine = s.g.rxRoutine)
    (hm : (f s.g).midiStarted = s.g.midiStarted) : Unmoved t i c s (s.upd f) := by
  have hport : (s.upd f).port i c = s.port i c := by
    simp only [Oms.port, Oms.upd, hi]
  refine ⟨ht, ?_, le_refl _, fun _ => id, hr, hm, fun _ => rfl, ?_, ?_, ?_⟩
  · intro hv
    simpa only [Oms.upd, hi] using hv
  · rw [hport]
  · rw [hport]
  · rw [hport]

theorem log (s : Oms) (es : List OmsEntry) : Unmoved t i c s (s.log es) :=
  ⟨rfl, id, le_refl _, fun _ => id, rfl, rfl, fun _ => rfl, rfl, rfl, rfl⟩

/-- A port whose receive side stays. -/
theorem setPort (s : Oms) {j k : ℕ} {p : OmsPort}
    (hp : (j, k) = (i, c) → p.rx = (s.port i c).rx ∧ p.valid = (s.port i c).valid ∧
      p.ioRefNum = (s.port i c).ioRefNum) : Unmoved t i c s (s.setPort j k p) := by
  have hport : ((s.setPort j k p).port i c).rx = (s.port i c).rx ∧
      ((s.setPort j k p).port i c).valid = (s.port i c).valid ∧
      ((s.setPort j k p).port i c).ioRefNum = (s.port i c).ioRefNum := by
    obtain ⟨hself, hothers⟩ := s.port_setPort j k p
    by_cases hjk : (j, k) = (i, c)
    · obtain ⟨rfl, rfl⟩ := Prod.mk.inj hjk
      rw [hself]
      exact hp rfl
    · rw [hothers i c (Ne.symm hjk)]
      exact ⟨rfl, rfl, rfl⟩
  refine ⟨rfl, ?_, le_refl _, fun _ => id, rfl, rfl, fun _ => rfl, hport.1, hport.2.1, hport.2.2⟩
  intro hv
  by_cases hj : i = j
  · subst hj
    simpa only [Oms.setPort, Oms.upd, Function.update_self] using hv
  · simpa only [Oms.setPort, Oms.upd, Function.update_of_ne hj] using hv

/-- A driver that keeps what interface `i` has of it. -/
theorem setDriver (s : Oms) (t' : ℕ) {d : ClassDriver}
    (hd : t' = t → (s.drivers t).count ≤ d.count ∧
      (i < (s.drivers t).count → (s.drivers t).hooks i = true → d.hooks i = true) ∧
      (i < (s.drivers t).count → d.rings i = (s.drivers t).rings i)) :
    Unmoved t i c s (s.setDriver t' d) := by
  by_cases ht : t' = t
  · subst ht
    obtain ⟨hcount, hhook, hring⟩ := hd rfl
    have hself : (s.setDriver t' d).drivers t' = d := Function.update_self ..
    refine ⟨rfl, id, ?_, ?_, rfl, rfl, ?_, rfl, rfl, rfl⟩
    · rwa [hself]
    · rwa [hself]
    · rwa [hself]
  · have hother : (s.setDriver t' d).drivers t = s.drivers t := Function.update_of_ne (Ne.symm ht) ..
    refine ⟨rfl, id, ?_, ?_, rfl, rfl, ?_, rfl, rfl, rfl⟩
    · rw [hother]
    · rw [hother]
      exact fun _ => id
    · rw [hother]
      exact fun _ => rfl

theorem foldl {ι : Type*} {f : Oms → ι → Oms} (h : ∀ s x, Unmoved t i c s (f s x)) (l : List ι)
    (s : Oms) : Unmoved t i c s (l.foldl f s) := by
  induction l generalizing s with
  | nil => exact refl s
  | cons x l ih => exact (h s x).trans (ih _)

end Unmoved

/-! ## Drains -/

/-- A drain keeps the rings in order. -/
theorem omsRxDrain_wf {j : ℕ} (deliver : Bool) (h : ((s.drivers t).rings i).Wf ringSize) :
    (((omsRxDrain j deliver s).drivers t).rings i).Wf ringSize := by
  by_cases hd : s.Drains j t
  swap
  · obtain ⟨-, -, -, -, -, hrings⟩ := omsRxDrain_frame j deliver s
    by_cases hj : i = j
    · subst hj
      rw [hrings t i (.inl hd)]
      exact h
    · rw [hrings t i (.inr hj)]
      exact h
  by_cases hj : i = j
  · subst hj
    obtain ⟨r', chunks, hdrain, hwf, -⟩ := drainRing_spec ringSize_ok
      (show 0 < omsDequeueChunk by decide) (omsRxChunk i deliver) h
      (n := um9RingUsed ringSize ((s.drivers t).rings i) + 1)
      (by rw [um9RingUsed_eq ringSize_ok h]; omega) s
    rw [omsRxDrain_eq hd, hdrain]
    simpa only [Oms.setRing, Oms.setDriver, Function.update_self] using hwf
  · obtain ⟨-, -, -, -, -, hrings⟩ := omsRxDrain_frame j deliver s
    rw [hrings t i (.inr hj)]
    exact h

/-- What else a drain leaves alone. -/
theorem omsRxDrain_hooked (j : ℕ) (deliver : Bool) (s : Oms) :
    (∀ t, ((omsRxDrain j deliver s).drivers t).hooks = (s.drivers t).hooks) ∧
      (omsRxDrain j deliver s).g.rxRoutine = s.g.rxRoutine := by
  by_cases h : ∃ t, s.Drains j t
  swap
  · rw [omsRxDrain_skip (not_exists.1 h)]
    exact ⟨fun _ => rfl, rfl⟩
  obtain ⟨t, ht⟩ := h
  obtain ⟨fs, s', r, heq, hd⟩ := omsRxDrain_drained ht deliver
  rw [heq]
  refine ⟨?_, hd.rxRoutine⟩
  intro t'
  by_cases htt : t' = t
  · subst htt
    simp only [Oms.setRing, Oms.setDriver, Function.update_self, hd.drivers]
  · simp only [Oms.setRing, Oms.setDriver, Function.update_of_ne htt, hd.drivers]

theorem omsRxDrain_port {j : ℕ} (hj : i ≠ j) (deliver : Bool) :
    (omsRxDrain j deliver s).port i c = s.port i c := by
  by_cases h : ∃ t, s.Drains j t
  swap
  · rw [omsRxDrain_skip (not_exists.1 h)]
  obtain ⟨t, ht⟩ := h
  obtain ⟨fs, s', r, heq, hd⟩ := omsRxDrain_drained ht deliver
  rw [heq]
  show (s'.g.ifaces i).ports c = (s.g.ifaces i).ports c
  rw [hd.others i hj]

/-- **A drain of another interface.** -/
theorem Unmoved.drain {j : ℕ} (hj : i ≠ j) (deliver : Bool) (s : Oms) :
    Unmoved t i c s (omsRxDrain j deliver s) := by
  obtain ⟨htable, hstarted, -, hvalid, hcount, hrings⟩ := omsRxDrain_frame j deliver s
  obtain ⟨hhooks, hroutine⟩ := omsRxDrain_hooked j deliver s
  have hport : (omsRxDrain j deliver s).port i c = s.port i c := omsRxDrain_port hj deliver
  refine ⟨htable, ?_, (hcount t).ge, ?_, hroutine, hstarted, fun _ => hrings t i (.inr hj), ?_, ?_, ?_⟩
  · rw [hvalid]
    exact id
  · rw [hhooks]
    exact fun _ => id
  · rw [hport]
  · rw [hport]
  · rw [hport]

theorem receivedOn_silent {es : List OmsEntry} (h : ∀ e ∈ es, e.delivery = none) :
    receivedOn c es = [] := by
  have hnil : es.filterMap OmsEntry.delivery = [] := List.filterMap_eq_nil_iff.2 h
  rw [receivedOn, hnil]
  rfl

/-- The listener after some packets. -/
def Listener.fed (l : Listener) (ps : List EventPacket) : Listener :=
  { l with inSysex := decoder.final l.inSysex ps }

/-- **A drain of the interface** is heard as the listener says, or not at all. -/
theorem Oms.Attached.drain (h : s.Attached t i c) (hc : c < omsCables) (deliver : Bool) :
    (omsRxDrain i deliver s).Listening t i c ∧
      (omsRxDrain i deliver s).cable i c = (s.cable i c).fed
        ((onCable c (frames (((s.drivers t).rings i).queue ringSize))).map RxFrame.packet) ∧
      ∃ new, (omsRxDrain i deliver s).trace = s.trace ++ new ∧
        receivedOn c new = if deliver then
          expected (s.cable i c).refnum (s.cable i c).inSysex
            ((onCable c (frames (((s.drivers t).rings i).queue ringSize))).map RxFrame.packet)
        else [] := by
  obtain ⟨htable, hstarted, -, hvalid, hcount, -⟩ := omsRxDrain_frame i deliver s
  obtain ⟨hhooks, hroutine⟩ := omsRxDrain_hooked i deliver s
  have hwf : (((omsRxDrain i deliver s).drivers t).rings i).Wf ringSize := omsRxDrain_wf deliver h.ring
  obtain ⟨fs, s', r, heq, hd, -, hempty, -, hfs⟩ := omsRxDrain_spec h.drains (.inr h.ring) deliver
  subst hfs
  -- the port is the only thing that moves
  have hport : (omsRxDrain i deliver s).port i c = (rxPort deliver c).final (s.port i c)
      (onCable c (frames (((s.drivers t).rings i).queue ringSize))) := by
    rw [heq]
    show (s'.g.ifaces i).ports c = _
    rw [hd.ports]
    exact (Mealy.demux_out c _ _).2
  obtain ⟨hok, -⟩ := rxPort_ok deliver hc cable_of_onCable h.port
  obtain ⟨href, hin⟩ := rxPort_final deliver hc cable_of_onCable h.port
  refine ⟨⟨⟨⟨h.drains.lt, htable.trans h.drains.table, ?_, ?_⟩, ?_, ?_, hwf, ?_⟩, ?_⟩, ?_, ?_⟩
  · exact (hvalid i).trans h.drains.valid
  · exact (hcount t).symm ▸ h.drains.count
  · rw [hhooks]
    exact h.hook
  · rw [hroutine]
    exact h.routine
  · rw [hport]
    exact hok
  · rw [heq]
    simpa only [Oms.setRing, Oms.setDriver, Function.update_self] using hempty
  · rw [Oms.cable, hport, href, hin, hstarted]
    rfl
  · obtain ⟨new, hnew, hsilent, -, hout⟩ := hd.trace
    refine ⟨new, by rw [heq]; exact hnew, ?_⟩
    cases deliver with
    | false =>
      rw [hsilent rfl]
      rfl
    | true =>
      rw [receivedOn, hout h.routine]
      exact ((Mealy.demux_out c _ _).1).trans (rxPort_run hc cable_of_onCable h.port)

/-! ## Starting -/

/-- Discarding delivers nothing. -/
theorem omsRxDrain_discards (j : ℕ) (s : Oms) : (omsRxDrain j false s).trace = s.trace := by
  by_cases h : ∃ t, s.Drains j t
  swap
  · rw [omsRxDrain_skip (not_exists.1 h)]
  obtain ⟨t, ht⟩ := h
  obtain ⟨fs, s', r, heq, hd⟩ := omsRxDrain_drained ht false
  obtain ⟨new, hnew, hnil, -⟩ := hd.trace
  rw [heq]
  exact hnew.trans (by rw [hnil rfl, List.append_nil])

/-- Draining every interface empties the ring and delivers nothing. -/
theorem Oms.Attached.discard (h : s.Attached t i c) (hc : c < omsCables) :
    (omsRxDrainAll false s).Listening t i c ∧
      (omsRxDrainAll false s).trace = s.trace ∧
      ((omsRxDrainAll false s).port i c).refnum = (s.port i c).refnum ∧
      (omsRxDrainAll false s).g.midiStarted = s.g.midiStarted := by
  -- the interfaces of `l` are drained; it was emptied before unless `i` is among them
  have hfold : ∀ (l : List ℕ) (s : Oms), s.Attached t i c → (i ∉ l → s.Listening t i c) →
      let s' := l.foldl (fun s j => if (s.g.ifaces j).valid then omsRxDrain j false s else s) s
      s'.Listening t i c ∧ s'.trace = s.trace ∧
        (s'.port i c).refnum = (s.port i c).refnum ∧ s'.g.midiStarted = s.g.midiStarted := by
    intro l
    induction l with
    | nil =>
      intro s _ hs
      exact ⟨hs List.not_mem_nil, rfl, rfl, rfl⟩
    | cons j l ih =>
      intro s ha hs
      rw [List.foldl_cons]
      have hstarted := (omsRxDrain_frame j false s).2.1
      by_cases hj : i = j
      · subst hj
        rw [if_pos ha.drains.valid]
        obtain ⟨hl, hlisten, -⟩ := ha.drain hc false
        obtain ⟨h1, h2, h3, h4⟩ := ih _ hl.toAttached fun _ => hl
        exact ⟨h1, h2.trans (omsRxDrain_discards i s), h3.trans (congrArg Listener.refnum hlisten),
          h4.trans hstarted⟩
      · by_cases hv : (s.g.ifaces j).valid = true
        swap
        · rw [if_neg hv]
          exact ih s ha fun hl => hs (by simp [hj, hl])
        rw [if_pos hv]
        have hmoved : Unmoved t i c s (omsRxDrain j false s) := .drain hj false s
        obtain ⟨h1, h2, h3, h4⟩ := ih _ (hmoved.attached ha)
          fun hl => hmoved.listening (hs (by simp [hj, hl]))
        have href := congrArg Listener.refnum hmoved.cable
        exact ⟨h1, h2.trans (omsRxDrain_discards j s), h3.trans href, h4.trans hstarted⟩
  unfold omsRxDrainAll
  have ht : s.g.table ≠ none := by
    rw [h.drains.table]
    exact nofun
  rw [if_neg ht]
  exact hfold _ s h fun hl => absurd (List.mem_range.2 h.drains.lt) hl

/-- **The start of MIDI**: the backlog is discarded and the cable is outside a SysEx. -/
theorem Oms.Attached.start (h : s.Attached t i c) (hc : c < omsCables) :
    (omsStart s).Listening t i c ∧
      (omsStart s).cable i c = ⟨true, (s.port i c).refnum, false⟩ ∧
      (omsStart s).trace = s.trace := by
  obtain ⟨hl, htrace, href, -⟩ := h.discard hc
  have hport : (omsStart s).port i c =
      if ((omsRxDrainAll false s).port i c).valid then
        ((omsRxDrainAll false s).port i c).reset c
      else (omsRxDrainAll false s).port i c := by
    show (if _ then _ else _) = _
    have hv := hl.drains.valid
    simp only [hv, true_and]
    rfl
  have hreset : ∀ p : OmsPort, p.Ok c → (if p.valid then p.reset c else p).Ok c := by
    intro p hp
    refine hp.moved ?_ hc
    split_ifs
    · exact .inr rfl
    · exact .refl c p
  refine ⟨⟨⟨⟨hl.drains.lt, hl.drains.table, hl.drains.valid, hl.drains.count⟩, hl.hook, hl.routine,
    hl.ring, ?_⟩, hl.empty⟩, ?_, htrace⟩
  · rw [hport]
    exact hreset _ hl.port
  · have hrefnum : ((omsStart s).port i c).refnum = (s.port i c).refnum := by
      rw [hport, ← href]
      split_ifs <;> rfl
    have hin : (((omsStart s).port i c).open_ c).rx.inSysex = false := by
      rw [hport]
      by_cases hv : ((omsRxDrainAll false s).port i c).valid = true
      · rw [if_pos hv, OmsPort.open_of_valid (show (OmsPort.reset _ c).valid = true from hv)]
        rfl
      · rw [if_neg hv, OmsPort.open_, if_neg hv]
        rfl
    rw [Oms.cable, hrefnum, hin]
    rfl

/-! ## Events -/

theorem Silent.receivedOn (h : Silent s s') (c : ℕ) :
    receivedOn c (s'.trace.drop s.trace.length) = [] := by
  obtain ⟨new, hnew, hnone⟩ := h
  rw [hnew, List.drop_left]
  exact receivedOn_silent hnone

/-- Nothing is heard, and nothing changes for the cable. -/
structure Undisturbed (t i c : ℕ) (s s' : Oms) : Prop where
  moved : Unmoved t i c s s'
  silent : Silent s s'

namespace Undisturbed

theorem refl (s : Oms) : Undisturbed t i c s s := ⟨.refl s, .of_eq rfl⟩

theorem trans (h : Undisturbed t i c s s') (h' : Undisturbed t i c s' s'') :
    Undisturbed t i c s s'' :=
  ⟨h.moved.trans h'.moved, h.silent.trans h'.silent⟩

theorem foldl {ι : Type*} {f : Oms → ι → Oms} (h : ∀ s x, Undisturbed t i c s (f s x))
    (l : List ι) (s : Oms) : Undisturbed t i c s (l.foldl f s) := by
  induction l generalizing s with
  | nil => exact refl s
  | cons x l ih => exact (h s x).trans (ih _)

theorem upd (s : Oms) {f : OmsGlobals → OmsGlobals} (hi : (f s.g).ifaces = s.g.ifaces)
    (ht : (f s.g).table = s.g.table) (hr : (f s.g).rxRoutine = s.g.rxRoutine)
    (hm : (f s.g).midiStarted = s.g.midiStarted) : Undisturbed t i c s (s.upd f) :=
  ⟨.upd s hi ht hr hm, .of_eq rfl⟩

theorem log (s : Oms) {es : List OmsEntry} (h : ∀ e ∈ es, e.delivery = none) :
    Undisturbed t i c s (s.log es) :=
  ⟨.log s es, es, rfl, h⟩

theorem malformed (s : Oms) : Undisturbed t i c s s.malformed :=
  .upd s (f := fun g => { g with txMalformed := g.txMalformed + 1 }) rfl rfl rfl rfl

/-- Hooks are only registered. -/
theorem setHook (s : Oms) (t' j : ℕ) : Undisturbed t i c s (s.setHook t' j true) := by
  refine ⟨.setDriver s t' ?_, .of_eq rfl⟩
  rintro rfl
  refine ⟨le_refl _, ?_, fun _ => rfl⟩
  intro _ hh
  show (if j < (s.drivers t').count then Function.update (s.drivers t').hooks j true
    else (s.drivers t').hooks) i = true
  split_ifs
  · rw [Function.update_apply]
    split_ifs
    · rfl
    · exact hh
  · exact hh

theorem registerCallbacks (s : Oms) (t' : ℕ) : Undisturbed t i c s (omsRegisterCallbacks s t') := by
  refine (upd s (f := fun g => { g with callbackRegistered := false }) rfl rfl rfl rfl).trans
    (foldl ?_ _ _)
  intro s j
  exact (setHook s t' j).trans (upd _ rfl rfl rfl rfl)

theorem validate (s : Oms) (j : ℕ) : Undisturbed t i c s (omsValidate s j) := by
  refine ⟨?_, .of_eq rfl⟩
  have hports : (omsValidate s j).port i c = s.port i c := by
    by_cases hj : i = j
    · subst hj
      simp only [Oms.port, omsValidate, Oms.upd, Function.update_self]
    · simp only [Oms.port, omsValidate, Oms.upd, Function.update_of_ne hj]
  refine ⟨rfl, ?_, le_refl _, fun _ => id, rfl, rfl, fun _ => rfl, ?_, ?_, ?_⟩
  · intro hv
    by_cases hj : i = j
    · subst hj
      simp only [omsValidate, Oms.upd, Function.update_self]
    · simpa only [omsValidate, Oms.upd, Function.update_of_ne hj] using hv
  · rw [hports]
  · rw [hports]
  · rw [hports]

theorem addDevices (h : s.g.table = some t) (hasProc : Bool) (devices : List (ℤ × SymbolAnswer)) :
    Undisturbed t i c s (omsAddDevices s hasProc devices) := by
  have hlocate : (omsLocateDispatch s devices).1 = s := by
    rw [omsLocateDispatch, if_pos (by rw [h]; exact Option.some_ne_none _)]
  unfold omsAddDevices
  split_ifs
  · exact refl s
  simp only [hlocate, h]
  exact (registerCallbacks s t).trans
    ((upd _ (f := fun g => { g with
      nInterfaces := min ((omsRegisterCallbacks s t).drivers t).count omsMaxInterfaces })
      rfl rfl rfl rfl).trans (foldl validate _ _))

theorem usbNotify (h : s.g.table = some t) {n : DeviceNotification}
    (hn : (OmsEvent.notification n).Attached t s) : Undisturbed t i c s (omsUsbNotify s n) := by
  have ht : s.g.table ≠ none := by
    rw [h]
    exact nofun
  cases n with
  | add deviceRef conn =>
    simp only [omsUsbNotify, omsAttachDevice, if_pos ht]
    exact refl s
  | remove deviceRef =>
    simp only [omsUsbNotify]
    rw [if_neg fun hand => hn hand.2]
    exact refl s
  | other => exact refl s

theorem newSendUpp (s : Oms) (upp : Option ℕ) : Undisturbed t i c s (omsNewSendUpp s upp) := by
  refine (upd s (f := fun g => { g with sendUpp := upp }) rfl rfl rfl rfl).trans (log _ ?_)
  intro e he
  obtain ⟨upp, -, rfl⟩ := List.mem_map.1 he
  rfl

theorem getPortSendProc (s : Oms) (portID : Option OmsPortID) (sendPars : Option OmsSendParams)
    (upp : Option ℕ) : Undisturbed t i c s (omsGetPortSendProc s portID sendPars upp).1 := by
  unfold omsGetPortSendProc
  split
  · split
    · exact refl s
    · simp only
      split_ifs <;> split <;> first | exact refl s | exact newSendUpp s upp
  · exact refl s

/-- A refnum for another port, or for none. -/
theorem setPortReceiveRefNum {portID : Option OmsPortID} (ioRefNum : Int16)
    (h : portID.bind OmsPortID.port? ≠ some (i + 1, c)) :
    Undisturbed t i c s (omsSetPortReceiveRefNum s portID ioRefNum) := by
  unfold omsSetPortReceiveRefNum
  rcases hid : portID.bind OmsPortID.port? with _ | ⟨ifaceNo, cable⟩
  · exact refl s
  refine ⟨.setPort s ?_, .of_eq rfl⟩
  intro heq
  obtain ⟨hi, hc⟩ := Prod.mk.inj heq
  have hpos : 1 ≤ ifaceNo := by
    obtain ⟨id, -, hport⟩ := Option.bind_eq_some_iff.1 hid
    unfold OmsPortID.port? at hport
    simp only at hport
    split_ifs at hport with hbad
    obtain ⟨rfl, -⟩ := Prod.mk.inj (Option.some.inj hport)
    omega
  exact absurd (by rw [hid, ← hi, ← hc, Nat.sub_add_cancel hpos]) h

theorem emit (s : Oms) (portCode : ℕ) (ps : List EventPacket) :
    Undisturbed t i c s (omsTxEmit s portCode ps) := by
  refine (upd s (f := fun g => { g with
    txConverted := g.txConverted + UInt32.ofNat ps.length
    txDropped := g.txDropped + UInt32.ofNat ps.length }) rfl rfl rfl rfl).trans (log _ ?_)
  intro e he
  obtain ⟨p, -, rfl⟩ := List.mem_map.1 he
  rfl

/-- The transmit side of a port. -/
theorem setTx (s : Oms) {j k : ℕ} {p : OmsPort} (hrx : p.rx = (s.port j k).rx)
    (hv : p.valid = (s.port j k).valid) (hr : p.ioRefNum = (s.port j k).ioRefNum) :
    Undisturbed t i c s (s.setPort j k p) := by
  refine ⟨.setPort s ?_, .of_eq rfl⟩
  intro heq
  obtain ⟨rfl, rfl⟩ := Prod.mk.inj heq
  exact ⟨hrx, hv, hr⟩

theorem chunk {ifaceNo cable mode : ℕ} {pkt : OmsMidiPacket}
    (h : omsTxChunk s ifaceNo cable mode pkt = some s') : Undisturbed t i c s s' := by
  obtain ⟨r, hr, rfl⟩ := Option.map_eq_some_iff.1 h
  have hsame := omsTxSysexChunk_port hr
  exact (setTx s hsame.rx hsame.valid hsame.ioRefNum).trans
    ((upd _ (f := fun g => { g with txMalformed := g.txMalformed + r.malformed })
      rfl rfl rfl rfl).trans (emit _ _ _))

theorem message (s : Oms) (ifaceNo cable : ℕ) (pkt : OmsMidiPacket) :
    Undisturbed t i c s (omsTxMessage s ifaceNo cable pkt) := by
  unfold omsTxMessage
  split_ifs
  · exact malformed s
  have hport : ∀ tx, Undisturbed t i c s (s.setPort (ifaceNo - 1) cable
      { s.port (ifaceNo - 1) cable with tx := tx }) := fun tx => setTx s rfl rfl rfl
  simp only
  split_ifs
  · exact (hport _).trans (malformed _)
  · exact (hport _).trans (emit _ _ _)

/-- **The send hook.** -/
theorem send {pkt : Option OmsMidiPacket} {refCon : ℕ} (h : omsTxSend s pkt refCon = some s') :
    Undisturbed t i c s s' := by
  rcases hpkt : pkt with _ | p
  · rw [omsTxSend_ignored (.inl hpkt)] at h
    exact Option.some.inj h ▸ malformed s
  rcases hport : sendPort? refCon with _ | ⟨ifaceNo, cable⟩
  · rw [omsTxSend_ignored (.inr hport)] at h
    exact Option.some.inj h ▸ malformed s
  rw [hpkt, omsTxSend_port hport] at h
  split_ifs at h
  · exact Option.some.inj h ▸ message s ifaceNo cable p
  · exact chunk h

theorem appear (s : Oms) (t' : ℕ) (buf : ℕ → RingByte) : Undisturbed t i c s (omsAppear s t' buf) := by
  refine ⟨.setDriver s t' ?_, .of_eq rfl⟩
  rintro rfl
  refine ⟨Nat.le_succ _, ?_, ?_⟩
  · intro hi hh
    exact (Function.update_of_ne hi.ne ..).trans hh
  · intro hi
    exact Function.update_of_ne hi.ne ..

/-- A transfer into another ring. -/
theorem stored {t' j : ℕ} (h : ¬(t' = t ∧ j = i)) (r : Ring RingByte) :
    Undisturbed t i c s (s.setRing t' j r) := by
  refine ⟨.setDriver s t' ?_, .of_eq rfl⟩
  rintro rfl
  have hj : i ≠ j := fun hij => h ⟨rfl, hij.symm⟩
  refine ⟨le_refl _, fun _ => id, ?_⟩
  intro _
  exact Function.update_of_ne hj ..

end Undisturbed

/-- What one event has to do: the state stays related to the listener, which takes
    the event's inputs and emits what is heard. -/
structure ListenerStep (t i c : ℕ) (s s' : Oms) (ins : List ListenerInput)
    (heard : List (OmsPacket × Int16)) : Prop where
  listening : s'.Listening t i c
  final : s'.cable i c = listener.final (s.cable i c) ins
  out : heard = listener.out (s.cable i c) ins

theorem Undisturbed.step (h : Undisturbed t i c s s') (hs : s.Listening t i c) :
    ListenerStep t i c s s' [] (receivedOn c (s'.trace.drop s.trace.length)) :=
  ⟨h.moved.listening hs, h.moved.cable, h.silent.receivedOn c⟩

/-- **A transfer of the interface.** -/
theorem Oms.Listening.transfer (h : s.Listening t i c) (hc : c < omsCables) (data : List UInt8) :
    ListenerStep t i c s (omsCompletion s t i data) [.packets (cablePackets c data)]
      (receivedOn c ((omsCompletion s t i data).trace.drop s.trace.length)) := by
  by_cases hnil : data = []
  · subst hnil
    have hsame : omsCompletion s t i [] = s := rfl
    have hout : expected (s.cable i c).refnum (s.cable i c).inSysex [] = [] := by
      unfold expected
      split_ifs <;> rfl
    rw [hsame]
    refine ⟨h, rfl, ?_⟩
    rw [(Silent.of_eq rfl).receivedOn c]
    simp [listener, cablePackets, transferPackets, hout]
  generalize hq : (um9RingEnqueue ringSize ((s.drivers t).rings i) (s.stamp data)).1 = r
  obtain ⟨hwf, hqueue, -, -⟩ := um9RingEnqueue_spec ringSize_ok h.ring (s.stamp data)
  rw [hq, h.empty, List.nil_append, List.length_nil, Nat.sub_zero] at hqueue
  rw [hq] at hwf
  -- the transfer is in the ring, and the push hook was counted
  generalize hs₁ : (s.setRing t i r).upd (fun g => { g with events := g.events + 1 }) = s₁
  have hdrivers : s₁.drivers t = { s.drivers t with
      rings := Function.update (s.drivers t).rings i r } := by
    rw [← hs₁]
    exact Function.update_self ..
  have hring : (s₁.drivers t).rings i = r := by
    rw [hdrivers]
    exact Function.update_self ..
  have heq : omsCompletion s t i data = omsRxDrain i s₁.g.midiStarted s₁ := by
    have hhook : ((s.setRing t i r).drivers t).hooks i = true := by
      have hself : (s.setRing t i r).drivers t = { s.drivers t with
          rings := Function.update (s.drivers t).rings i r } := Function.update_self ..
      rw [hself]
      exact h.hook
    simp only [omsCompletion, if_neg hnil, hq, if_pos hhook, omsRxEvent, hs₁]
  have hlistener : s₁.cable i c = s.cable i c := by
    rw [← hs₁]
    rfl
  have htrace : s₁.trace = s.trace := by
    rw [← hs₁]
    rfl
  have hstarted : s₁.g.midiStarted = (s.cable i c).running := by
    rw [← hs₁]
    rfl
  have hattached : s₁.Attached t i c := by
    refine ⟨⟨h.drains.lt, ?_, ?_, ?_⟩, ?_, ?_, ?_, ?_⟩
    · rw [← hs₁]
      exact h.drains.table
    · rw [← hs₁]
      exact h.drains.valid
    · rw [hdrivers]
      exact h.drains.count
    · rw [hdrivers]
      exact h.hook
    · rw [← hs₁]
      exact h.routine
    · rw [hring]
      exact hwf
    · rw [← hs₁]
      exact h.port
  have hpackets : (onCable c (frames (((s₁.drivers t).rings i).queue ringSize))).map
      RxFrame.packet = cablePackets c data := by
    rw [packet_onCable, packet_frames, hring, hqueue, List.map_take, val_stamp]
    rfl
  obtain ⟨hl, hfinal, new, hnew, hout⟩ := hattached.drain hc s₁.g.midiStarted
  rw [hpackets, hlistener] at hfinal hout
  rw [heq]
  refine ⟨hl, hfinal, ?_⟩
  rw [hnew, htrace, List.drop_left, hout, hstarted]
  simp [listener]

/-- **A transfer of another interface.** -/
theorem Oms.Listening.otherTransfer (h : s.Listening t i c) (hc : c < omsCables) {t' j : ℕ}
    (hother : ¬(t' = t ∧ j = i)) (data : List UInt8) :
    ListenerStep t i c s (omsCompletion s t' j data) [] [] := by
  by_cases hnil : data = []
  · subst hnil
    exact ⟨h, rfl, rfl⟩
  generalize hr : (um9RingEnqueue ringSize ((s.drivers t').rings j) (s.stamp data)).1 = r
  have hstored : Undisturbed t i c s (s.setRing t' j r) := .stored hother r
  by_cases hhook : ((s.setRing t' j r).drivers t').hooks j = true
  swap
  · have heq : omsCompletion s t' j data = s.setRing t' j r := by
      simp only [omsCompletion, if_neg hnil, hr, if_neg hhook]
    rw [heq]
    exact ⟨hstored.moved.listening h, hstored.moved.cable, rfl⟩
  have hcounted : Undisturbed t i c s
      ((s.setRing t' j r).upd fun g => { g with events := g.events + 1 }) :=
    hstored.trans (.upd _ rfl rfl rfl rfl)
  have heq : omsCompletion s t' j data =
      omsRxDrain j s.g.midiStarted
        ((s.setRing t' j r).upd fun g => { g with events := g.events + 1 }) := by
    simp only [omsCompletion, if_neg hnil, hr, if_pos hhook]
    rfl
  rw [heq]
  by_cases hj : i = j
  · -- a class driver that is not bound has its own ring for `i`; the drain finds ours empty
    subst hj
    have hlisten := hcounted.moved.listening h
    obtain ⟨hl, hfinal, -⟩ := hlisten.toAttached.drain hc s.g.midiStarted
    rw [hlisten.empty] at hfinal
    exact ⟨hl, hfinal.trans hcounted.moved.cable, rfl⟩
  · have hmoved := hcounted.moved.trans (.drain hj s.g.midiStarted _)
    exact ⟨hmoved.listening h, hmoved.cable, rfl⟩

/-- **A refnum for the port.** -/
theorem Oms.Listening.setRefNum (h : s.Listening t i c) (hc : c < omsCables)
    {portID : Option OmsPortID} (hid : portID.bind OmsPortID.port? = some (i + 1, c))
    (ioRefNum : Int16) :
    ListenerStep t i c s (omsSetPortReceiveRefNum s portID ioRefNum) [.refnum ioRefNum] [] := by
  have heq : omsSetPortReceiveRefNum s portID ioRefNum = s.setPort i c
      { (s.port i c).initStreams c with valid := true, ioRefNum := ioRefNum } := by
    simp only [omsSetPortReceiveRefNum, hid, Nat.add_sub_cancel]
  have hport := (s.port_setPort i c
    { (s.port i c).initStreams c with valid := true, ioRefNum := ioRefNum }).1
  have hidle := um9RxInit_idle (s.port i c).rx (cable_le hc)
  rw [heq]
  refine ⟨⟨⟨⟨h.drains.lt, h.drains.table, ?_, h.drains.count⟩, h.hook, h.routine, h.ring, ?_⟩,
    h.empty⟩, ?_, rfl⟩
  · simpa only [Oms.setPort, Oms.upd, Function.update_self] using h.drains.valid
  · rw [hport]
    exact ⟨hidle.count, fun _ => hidle⟩
  · rw [Oms.cable, hport]
    rfl

/-- **One event** is a step of the listener. -/
theorem Oms.Listening.step (h : s.Listening t i c) (hc : c < omsCables) {e : OmsEvent}
    (he : e.Attached t s) (hs : omsStep s e = some s') :
    ListenerStep t i c s s' (e.inputs t i c) (e.heard t i c s s') := by
  have htable := h.drains.table
  cases e with
  | message m =>
    obtain rfl := Option.some.inj hs
    cases m with
    | init answers => exact he.elim
    | dispose => exact he.elim
    | addDevices hasProc devices => exact (Undisturbed.addDevices htable hasProc devices).step h
    | startMIDI => exact (Undisturbed.refl s).step h
    | startMIDI2 devices =>
      have hlocate : (omsLocateDispatch s devices).1 = s := by
        rw [omsLocateDispatch, if_pos (by rw [htable]; exact Option.some_ne_none _)]
      have heq : omsHandleMessage s (.startMIDI2 devices) = omsStart s := by
        rw [omsHandleMessage, omsStartMidi2, hlocate]
      obtain ⟨hl, hfinal, htrace⟩ := h.toAttached.start hc
      rw [heq]
      exact ⟨hl, hfinal, (Silent.of_eq htrace).receivedOn c⟩
    | stopMIDI =>
      have hsilent : Silent s (omsStopMidi s) := .of_eq rfl
      exact ⟨⟨⟨⟨h.drains.lt, htable, h.drains.valid, h.drains.count⟩, h.hook, h.routine, h.ring,
        h.port⟩, h.empty⟩, rfl, hsilent.receivedOn c⟩
    | getPortSendProc portID sendPars upp =>
      exact (Undisturbed.getPortSendProc s portID sendPars upp).step h
    | setPortReceiveRefNum portID ioRefNum =>
      have hsilent : Silent s (omsSetPortReceiveRefNum s portID ioRefNum) := by
        refine .of_eq ?_
        unfold omsSetPortReceiveRefNum
        split <;> rfl
      by_cases hid : portID.bind OmsPortID.port? = some (i + 1, c)
      · obtain ⟨h1, h2, h3⟩ := h.setRefNum hc hid ioRefNum
        simp only [OmsEvent.inputs, if_pos hid]
        exact ⟨h1, h2, (hsilent.receivedOn c).trans h3⟩
      · simp only [OmsEvent.inputs, if_neg hid]
        exact (Undisturbed.setPortReceiveRefNum ioRefNum hid).step h
    | other => exact (Undisturbed.refl s).step h
  | notification n =>
    obtain rfl := Option.some.inj hs
    exact (Undisturbed.usbNotify htable he).step h
  | completion t' j data =>
    simp only [omsStep] at hs
    split_ifs at hs
    obtain rfl := Option.some.inj hs
    by_cases hown : t' = t ∧ j = i
    · obtain ⟨rfl, rfl⟩ := hown
      simp only [OmsEvent.inputs, OmsEvent.heard, and_self, if_true]
      exact h.transfer hc data
    · simp only [OmsEvent.inputs, OmsEvent.heard, if_neg hown]
      exact h.otherTransfer hc hown data
  | send pkt refCon => exact (Undisturbed.send hs).step h
  | appear t' buf =>
    simp only [omsStep] at hs
    split_ifs at hs
    exact Option.some.inj hs ▸ (Undisturbed.appear s t' buf).step h
  | removed t' =>
    refine Option.some.inj hs ▸ Undisturbed.step ⟨.setDriver s t' ?_, .of_eq rfl⟩ h
    exact fun ht => absurd ht he

/-! ## Runs -/

/-- **Every run** of events that leave the class driver attached. -/
theorem Oms.Listening.run (h : s.Listening t i c) (hc : c < omsCables) {es : List OmsEvent}
    (hok : RunOk omsStep (OmsEvent.Attached t) s es) (hr : runEvents omsStep s es = some s') :
    ListenerStep t i c s s' (es.flatMap (OmsEvent.inputs t i c)) (heardAlong t i c s es) := by
  induction es generalizing s with
  | nil =>
    obtain rfl := Option.some.inj hr
    exact ⟨h, rfl, rfl⟩
  | cons e es ih =>
    obtain ⟨s₁, hs, hrest⟩ := Option.bind_eq_some_iff.1 hr
    obtain ⟨h1, h2, h3⟩ := h.step hc hok.1 hs
    obtain ⟨h4, h5, h6⟩ := ih h1 (hok.2 s₁ hs) hrest
    refine ⟨h4, ?_, ?_⟩
    · rw [h5, h2, List.flatMap_cons, Mealy.final_append]
    · rw [heardAlong, hs, List.flatMap_cons, Mealy.out_append, ← h2, ← h6, ← h3]

end

/-- How transfers are cut does not matter: what is heard of them while MIDI runs
    is what the decoder makes of all their packets. -/
theorem listener_packets (l : Listener) (h : l.running = true) (pss : List (List EventPacket)) :
    listener.out l (pss.map .packets) = expected l.refnum l.inSysex pss.flatten ∧
      listener.final l (pss.map .packets) = l.fed pss.flatten := by
  induction pss generalizing l with
  | nil =>
    have hnil : expected l.refnum l.inSysex [] = [] := by
      unfold expected
      split_ifs <;> rfl
    exact ⟨hnil.symm, rfl⟩
  | cons ps pss ih =>
    obtain ⟨ho, hf⟩ := ih (l.fed ps) h
    rw [List.map_cons, List.flatten_cons, Mealy.out_cons, Mealy.final_cons]
    refine ⟨?_, ?_⟩
    · rw [expected_append]
      refine congrArg₂ (· ++ ·) ?_ ho
      simp only [listener, h, if_true]
    · refine hf.trans ?_
      simp only [Listener.fed, Mealy.final_append]

/-- An interface of a reachable state is attached if it is bound, valid and hooked. -/
theorem Oms.Attached.reach {drivers : ℕ → ClassDriver} (hdrivers : ∀ t, (drivers t).Fresh)
    {s : Oms} (h : Reach omsStep (fun _ _ => True) (.boot drivers) s) {t i c : ℕ}
    (hc : c < omsCables) (hd : s.Drains i t) (hhook : (s.drivers t).hooks i = true)
    (hr : s.g.rxRoutine ≠ 0) (hbuf : ((s.drivers t).rings i).buf ≠ none) : s.Attached t i c := by
  have hsound : RingsSound s :=
    oms_inv (F := False) (fun _ _ hs hm => hs.move hm) (RingsSound.boot hdrivers)
      (h.mono fun _ _ _ => False.elim)
  exact ⟨hd, hhook, hr, (hsound t i).resolve_left hbuf, PortsOk.reach h i c hc⟩

/-- A run that begins with the start of MIDI. -/
theorem Oms.Attached.started_run {t i c : ℕ} {s s' : Oms} (h : s.Attached t i c)
    (hc : c < omsCables) {devices : List (ℤ × SymbolAnswer)} {es : List OmsEvent}
    (hok : RunOk omsStep (OmsEvent.Attached t) s (.message (.startMIDI2 devices) :: es))
    (hrun : runEvents omsStep s (.message (.startMIDI2 devices) :: es) = some s') :
    heardAlong t i c s (.message (.startMIDI2 devices) :: es) =
        listener.out ⟨true, (s.port i c).refnum, false⟩ (es.flatMap (OmsEvent.inputs t i c)) ∧
      s'.cable i c =
        listener.final ⟨true, (s.port i c).refnum, false⟩ (es.flatMap (OmsEvent.inputs t i c)) := by
  have hlocate : (omsLocateDispatch s devices).1 = s := by
    rw [omsLocateDispatch, if_pos (by rw [h.drains.table]; exact Option.some_ne_none _)]
  have hstart : omsStep s (.message (.startMIDI2 devices)) = some (omsStart s) := by
    rw [omsStep, omsHandleMessage, omsStartMidi2, hlocate]
  obtain ⟨hl, hlisten, htrace⟩ := h.start hc
  have hrest : runEvents omsStep (omsStart s) es = some s' := by
    simpa only [runEvents, hstart, Option.bind_some] using hrun
  obtain ⟨-, hfinal, hout⟩ := hl.run hc (hok.2 _ hstart) hrest
  rw [hlisten] at hfinal hout
  refine ⟨?_, hfinal⟩
  rw [heardAlong, hstart, ← hout]
  exact congrArg (· ++ _) ((Silent.of_eq htrace).receivedOn c)

/-- **A cable is heard as the listener says.**  Let MIDI be started in any reachable
    state in which interface `i` of class driver `t` is bound, valid and hooked, its ring
    is allocated and `OMSReceivedFromPort` is resolved, and let any events follow that
    leave the class driver attached.  Then what OMS gets from
    the transfers of the interface on cable `c` is the listener's output on what the
    events are to that cable, and no event but a transfer hands anything to OMS. -/
theorem cable_refines {drivers : ℕ → ClassDriver} (hdrivers : ∀ t, (drivers t).Fresh) {s s' : Oms}
    (h : Reach omsStep (fun _ _ => True) (.boot drivers) s) {t i c : ℕ} (hc : c < omsCables)
    (hd : s.Drains i t) (hhook : (s.drivers t).hooks i = true) (hr : s.g.rxRoutine ≠ 0)
    (hbuf : ((s.drivers t).rings i).buf ≠ none) {devices : List (ℤ × SymbolAnswer)}
    {es : List OmsEvent}
    (hok : RunOk omsStep (OmsEvent.Attached t) s (.message (.startMIDI2 devices) :: es))
    (hrun : runEvents omsStep s (.message (.startMIDI2 devices) :: es) = some s') :
    heardAlong t i c s (.message (.startMIDI2 devices) :: es) =
        listener.out ⟨true, (s.port i c).refnum, false⟩ (es.flatMap (OmsEvent.inputs t i c)) ∧
      s'.cable i c =
        listener.final ⟨true, (s.port i c).refnum, false⟩ (es.flatMap (OmsEvent.inputs t i c)) :=
  (Oms.Attached.reach hdrivers h hc hd hhook hr hbuf).started_run hc hok hrun

/-- A SysEx run on cable 2 that is cut by the end of a transfer, by a Note On of cable 1, by
    a call of the send hook and by another `omdvAddDevices`. -/
def cutSysexEvents : List OmsEvent :=
  [.completion 0 0 [0x24, 0xF0, 0x01, 0x02, 0x19, 0x90, 0x30, 0x50],
    .send (some ⟨omsNoCont, 3, [0x90, 0x40, 0x7F, 0x00], rfl⟩) 0x0102,
    .message (.addDevices true []),
    .completion 0 0 [0x26, 0xF7, 0x00, 0x00]]

theorem cable_refines_cut : ∃ s',
    runEvents omsStep (afterEvents cableTwoEvents)
        (.message (.startMIDI2 []) :: cutSysexEvents) = some s' ∧
      heardAlong 0 0 2 (afterEvents cableTwoEvents)
          (.message (.startMIDI2 []) :: cutSysexEvents) =
        [(⟨omsStartCont, 3, 7, 0, [0xF0, 0x01, 0x02, 0x00]⟩, 7),
          (⟨omsEndCont, 1, 7, 0, [0xF7, 0x00, 0x00, 0x00]⟩, 7)] := by
  have hrun : RunOk omsStep (fun _ _ => True) (.boot fun _ => .single) cableTwoEvents := runOk_true
  have hreach := Reach.of_run hrun (show _ = some (afterEvents cableTwoEvents) from rfl)
  have hok : RunOk omsStep (OmsEvent.Attached 0) (afterEvents cableTwoEvents)
      (.message (.startMIDI2 []) :: cutSysexEvents) := by decide +kernel
  obtain ⟨s', hs'⟩ : ∃ s', runEvents omsStep (afterEvents cableTwoEvents)
      (.message (.startMIDI2 []) :: cutSysexEvents) = some s' := ⟨_, rfl⟩
  obtain ⟨hheard, -⟩ := cable_refines (fun _ => ClassDriver.single_fresh) hreach (t := 0) (i := 0) (c := 2) (by decide)
    ⟨by decide, rfl, rfl, by decide⟩ rfl (by decide) nofun hok hs'
  exact ⟨s', hs', hheard.trans (by decide +kernel)⟩

end Usbmidi9
