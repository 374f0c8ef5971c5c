/-
  USBMIDI9 — cables do not disturb each other.

  Between events nothing is pending on any port, and the stream of a port that
  is in use is that of its cable (`PortsOk`, an invariant of every run).  From
  such a port, one packet of the cable is one step of the decoder
  (`omsRxPortPacket_spec`), so the port's share of a drain is a run of the
  decoder on the packets of its cable (`rxPort_run`).

  `rx_cables_isolated` is the result: what a drain hands to OMS for a cable
  depends on the packets of that cable and on its port only.
-/
import Usbmidi9.Oms.Moves

namespace Usbmidi9

/-! ## Ports between events -/

/-- A port between events: nothing is pending, and its stream is that of its
    cable if it is in use. -/
structure OmsPort.Ok (cable : ℕ) (p : OmsPort) : Prop where
  count : p.rx.count = 0
  idle : p.valid = true → Idle p.rx cable

/-- Every port is idle. -/
def PortsOk (s : Oms) : Prop := ∀ i, ∀ c < omsCables, (s.port i c).Ok c

/-- The counters of dropped messages did not grow from `p` to `p'`. -/
structure NoDrops (p p' : OmsPort) : Prop where
  full : p'.rx.stats.droppedFull ≤ p.rx.stats.droppedFull
  misroute : p'.rx.stats.droppedMisroute ≤ p.rx.stats.droppedMisroute

theorem NoDrops.refl (p : OmsPort) : NoDrops p p := ⟨UInt32.le_refl _, UInt32.le_refl _⟩

theorem NoDrops.trans {p p' p'' : OmsPort} (h : NoDrops p p') (h' : NoDrops p' p'') :
    NoDrops p p'' :=
  ⟨UInt32.le_trans h'.full h.full, UInt32.le_trans h'.misroute h.misroute⟩

theorem cable_le {c : ℕ} (hc : c < omsCables) : c ≤ um9MaxCable := Nat.le_of_lt_succ hc

namespace OmsPort
variable {c : ℕ} {p : OmsPort}

theorem open_of_valid (h : p.valid = true) : p.open_ c = p := if_pos h

theorem refnum_of_valid (h : p.valid = true) : p.refnum = p.ioRefNum := if_pos h

theorem open_valid (p : OmsPort) (c : ℕ) : (p.open_ c).valid = true := by
  unfold open_
  split_ifs with h
  · exact h
  · rfl

theorem open_drops (p : OmsPort) (c : ℕ) : NoDrops p (p.open_ c) := by
  unfold open_
  split_ifs
  · exact .refl p
  · exact ⟨UInt32.zero_le, UInt32.zero_le⟩

theorem open_ioRefNum (p : OmsPort) (c : ℕ) : (p.open_ c).ioRefNum = p.refnum := by
  unfold open_ refnum
  split_ifs <;> rfl

theorem Ok.open_ (h : p.Ok c) (hc : c < omsCables) : Idle (p.open_ c).rx c := by
  unfold OmsPort.open_
  split_ifs with hv
  · exact h.idle hv
  · exact um9RxInit_idle _ (cable_le hc)

theorem Ok.moved {p' : OmsPort} (h : p.Ok c) (hm : PortMoved c p p') (hc : c < omsCables) :
    p'.Ok c := by
  rcases hm with ⟨hrx, hv⟩ | hrx
  · exact ⟨by rw [hrx]; exact h.count, fun hv' => by rw [hrx]; exact h.idle (hv ▸ hv')⟩
  · have hidle := um9RxInit_idle p.rx (cable_le hc)
    exact ⟨by rw [hrx]; exact hidle.count, fun _ => by rw [hrx]; exact hidle⟩

theorem zero_ok (c : ℕ) : OmsPort.zero.Ok c := ⟨rfl, nofun⟩

end OmsPort

/-! ## One packet -/

/-- The packet that OMS gets for a message. -/
def omsPacketOf (ioRefNum : Int16) (m : Message) : OmsPacket where
  flags := omsRxFlags m.sysex
  len := UInt8.ofNat m.bytes.length
  srcIORefNum := ioRefNum.toUInt16
  appConnRefCon := 0
  data := (List.range 4).map fun i => m.bytes.getD i 0

/-- What OMS gets is the message as its consumer sees it. -/
theorem omsRxBuildPacket_eq (ioRefNum : Int16) {m : RxMsg} (h : m.Sized) :
    omsRxBuildPacket ioRefNum m = omsPacketOf ioRefNum m.view := by
  rw [omsRxBuildPacket, omsPacketOf, h.length_view]
  simp only [OmsPacket.mk.injEq, true_and]
  refine ⟨rfl, List.map_congr_left ?_⟩
  intro i _
  have hview : m.view.bytes = m.data.take m.len := rfl
  rw [hview, List.getD_eq_getElem?_getD, List.getD_eq_getElem?_getD, List.getElem?_take]
  split_ifs <;> rfl

/-- **A packet of its cable** is a step of the decoder, started from the port as
    it is opened. -/
theorem omsRxPortPacket_spec {p : OmsPort} {c : ℕ} (hp : p.Ok c) (hc : c < omsCables)
    {pkt : EventPacket} (hpkt : pkt.cable = c) :
    (omsRxPortPacket p c pkt.bytes).1.valid = true ∧
      (omsRxPortPacket p c pkt.bytes).1.Ok c ∧
      (omsRxPortPacket p c pkt.bytes).1.ioRefNum = p.refnum ∧
      (omsRxPortPacket p c pkt.bytes).1.rx.inSysex = (decodeStep (p.open_ c).rx.inSysex pkt).1 ∧
      NoDrops p (omsRxPortPacket p c pkt.bytes).1 ∧
      (omsRxPortPacket p c pkt.bytes).2.map (omsRxBuildPacket p.refnum) =
        (decodeStep (p.open_ c).rx.inSysex pkt).2.map (omsPacketOf p.refnum) := by
  have hidle := hp.open_ hc
  obtain ⟨hout, hidle', hin, hfull, hmis⟩ := um9Feed_step hidle hpkt
  have heq : omsRxPortPacket p c pkt.bytes =
      ({ p.open_ c with rx := (um9Feed.step (p.open_ c).rx pkt).1 },
        (um9RxTakeAll (um9RxPacket (p.open_ c).rx pkt.bytes).1).2) := rfl
  have hroom : (p.open_ c).rx.count < um9RxQueue := by rw [hidle.count]; decide
  have hsized : ∀ m ∈ (um9RxTakeAll (um9RxPacket (p.open_ c).rx pkt.bytes).1).2, m.Sized := by
    rw [(um9RxTakeAll_spec (um9RxPacket_fed hidle.wf hroom (hpkt.trans hidle.cable.symm)).wf).1]
    refine um9RxPacket_sized hidle.wf ?_ (hpkt.trans hidle.cable.symm)
    intro m hm
    rw [RxStream.queue_eq_nil.2 hidle.count] at hm
    cases hm
  rw [heq]
  refine ⟨p.open_valid c, ⟨hidle'.count, fun _ => hidle'⟩, p.open_ioRefNum c, hin,
    (p.open_drops c).trans ⟨(congrArg (· ≤ _) hfull).mpr (UInt32.le_refl _),
      (congrArg (· ≤ _) hmis).mpr (UInt32.le_refl _)⟩, ?_⟩
  rw [← hout]
  show _ = ((um9RxTakeAll _).2.map RxMsg.view).map _
  rw [List.map_map]
  exact List.map_congr_left fun m hm => omsRxBuildPacket_eq _ (hsized m hm)

/-! ## Many packets -/

/-- What OMS gets for a cable: the packets of the decoder's messages, with the
    refnum of the port, or nothing if the refnum is negative. -/
def expected (ioRefNum : Int16) (inSysex : Bool) (ps : List EventPacket) :
    List (OmsPacket × Int16) :=
  if ioRefNum < 0 then []
  else (decoder.out inSysex ps).map fun m => (omsPacketOf ioRefNum m, ioRefNum)

section
variable {c : ℕ} {fs : List RxFrame} {p : OmsPort}

/-- **Nothing stays pending and nothing is dropped**, whether the messages are
    delivered or not. -/
theorem rxPort_ok (deliver : Bool) (hc : c < omsCables) (hfs : ∀ f ∈ fs, f.packet.cable = c)
    (hp : p.Ok c) :
    ((rxPort deliver c).final p fs).Ok c ∧ NoDrops p ((rxPort deliver c).final p fs) := by
  induction fs generalizing p with
  | nil => exact ⟨hp, .refl p⟩
  | cons f fs ih =>
    obtain ⟨-, hok, -, -, hdrops, -⟩ := omsRxPortPacket_spec hp hc (hfs f List.mem_cons_self)
    obtain ⟨h1, h2⟩ := ih (fun f' hf => hfs f' (List.mem_cons_of_mem _ hf)) hok
    exact ⟨h1, hdrops.trans h2⟩

/-- **A port on the packets of its cable** delivers what the decoder emits. -/
theorem rxPort_run (hc : c < omsCables) (hfs : ∀ f ∈ fs, f.packet.cable = c) (hp : p.Ok c) :
    (rxPort true c).out p fs =
      expected p.refnum (p.open_ c).rx.inSysex (fs.map RxFrame.packet) := by
  induction fs generalizing p with
  | nil =>
    unfold expected
    split_ifs <;> rfl
  | cons f fs ih =>
    obtain ⟨hv, hok, href, hin, -, hms⟩ :=
      omsRxPortPacket_spec hp hc (hfs f List.mem_cons_self)
    have hrest := ih (fun f' hf => hfs f' (List.mem_cons_of_mem _ hf)) hok
    have hopen : (omsRxPortPacket p c f.packet.bytes).1.open_ c =
        (omsRxPortPacket p c f.packet.bytes).1 := OmsPort.open_of_valid hv
    have hstep : ((rxPort true c).step p f).2 =
        (omsRxPortPacket p c f.packet.bytes).1.deliveries true
          (omsRxPortPacket p c f.packet.bytes).2 := rfl
    have hnext : ((rxPort true c).step p f).1 = (omsRxPortPacket p c f.packet.bytes).1 := rfl
    rw [Mealy.out_cons, hstep, hnext, hrest, hopen, OmsPort.refnum_of_valid hv, href, hin,
      OmsPort.deliveries, href, expected, expected]
    by_cases hneg : p.refnum < 0
    · simp only [hneg, or_true, if_true, List.append_nil]
    · have hpair := congrArg (List.map fun pkt => (pkt, p.refnum)) hms
      simp only [List.map_map] at hpair
      simp only [hneg, Bool.true_eq_false, or_self, if_false, List.map_cons, Mealy.out_cons,
        List.map_append]
      exact congrArg (· ++ _) hpair

end

/-! ## All ports -/

/-- The packets of a cable. -/
def onCable (c : ℕ) (fs : List RxFrame) : List RxFrame := fs.filter fun f => f.packet.cable = c

theorem cable_of_onCable {c : ℕ} {fs : List RxFrame} : ∀ f ∈ onCable c fs, f.packet.cable = c :=
  fun _ hf => of_decide_eq_true (List.mem_filter.1 hf).2

theorem rxIface_ok (deliver : Bool) {ports : ℕ → OmsPort} (fs : List RxFrame) {c : ℕ}
    (hc : c < omsCables) (hp : (ports c).Ok c) :
    ((rxIface deliver).final ports fs c).Ok c ∧
      NoDrops (ports c) ((rxIface deliver).final ports fs c) := by
  have hfinal : (rxIface deliver).final ports fs c =
      (rxPort deliver c).final (ports c) (onCable c fs) := (Mealy.demux_out c ports fs).2
  rw [hfinal]
  exact rxPort_ok deliver hc cable_of_onCable hp

theorem Drained.portsOk {i : ℕ} {deliver : Bool} {fs : List RxFrame} {s s' : Oms}
    (h : Drained i deliver fs s s') (hs : PortsOk s) : PortsOk s' := fun j c hc => by
  by_cases hj : j = i
  · subst hj
    rw [Oms.port, h.ports]
    exact (rxIface_ok deliver fs hc (hs j c hc)).1
  · rw [Oms.port, h.others j hj]
    exact hs j c hc

/-! ## Every run -/

namespace PortsOk
variable {s s' : Oms}

theorem congr (h : PortsOk s) (hp : ∀ i, (s'.g.ifaces i).ports = (s.g.ifaces i).ports) :
    PortsOk s' := fun i c hc => by
  rw [Oms.port, hp]
  exact h i c hc

theorem moved (h : PortsOk s) (hm : ∀ i, ∀ c < omsCables, PortMoved c (s.port i c) (s'.port i c)) :
    PortsOk s' := fun i c hc => (h i c hc).moved (hm i c hc) hc

theorem drain (h : PortsOk s) (i : ℕ) (deliver : Bool) : PortsOk (omsRxDrain i deliver s) := by
  by_cases hd : ∃ t, s.Drains i t
  · obtain ⟨t, ht⟩ := hd
    obtain ⟨fs, s', r, heq, hdrained⟩ := omsRxDrain_drained ht deliver
    rw [heq]
    exact (hdrained.portsOk h).congr fun _ => rfl
  · rw [omsRxDrain_skip (not_exists.1 hd)]
    exact h

theorem start (h : PortsOk s) : PortsOk (omsStart s) := by
  have hall : PortsOk (omsRxDrainAll false s) :=
    omsRxDrainAll_inv (fun s i hs => PortsOk.drain hs i false) h
  apply hall.moved
  intro i c _
  show PortMoved c _ (if _ then _ else _)
  split_ifs
  · exact .inr rfl
  · exact .refl c _

/-- **Every move keeps the ports idle.** -/
theorem move {F : Prop} (h : PortsOk s) (hm : OmsMove F s s') : PortsOk s' := by
  cases hm with
  | quiet hq => exact h.congr fun i => by rw [hq.ifaces]
  | ports hp => exact h.moved hp.port
  | drain i _ => exact h.drain i _
  | bind t deviceRef _ => exact h.congr fun _ => rfl
  | validate _ _ _ =>
    apply h.congr
    intro j
    simp only [omsValidate, Oms.upd, Function.update_apply]
    split_ifs with hj
    · rw [hj]
    · rfl
  | clear hg _ => exact fun i c _ => by rw [Oms.port, hg]; exact OmsPort.zero_ok c
  | start => exact h.start
  | stop => exact h.congr fun _ => rfl
  | store t i data => exact h.congr fun _ => rfl
  | appear t buf => exact h.congr fun _ => rfl

/-- Between events, every port is idle. -/
theorem reach {drivers : ℕ → ClassDriver}
    (h : Reach omsStep (fun _ _ => True) (.boot drivers) s) : PortsOk s :=
  have hboot : PortsOk (.boot drivers) := fun _ c _ => OmsPort.zero_ok c
  oms_inv (F := False) (fun _ _ hs hm => hs.move hm) hboot (h.mono fun _ _ _ => False.elim)

end PortsOk

/-! ## Isolation -/

/-- What OMS got from a cable, in order. -/
def receivedOn (c : ℕ) (es : List OmsEntry) : List (OmsPacket × Int16) :=
  ((es.filterMap OmsEntry.delivery).filter fun d => d.1 = c).map Prod.snd

/-- **Cables do not disturb each other.**  In every reachable state and for
    every ring, a drain hands to OMS, for each cable, what a decoder that starts
    from the SysEx bit of the cable's port makes of the Event Packets of that
    cable; bytes behind the last whole packet are no packet.  Meanwhile no port drops a message, and afterwards
    none is pending. -/
theorem rx_cables_isolated {drivers : ℕ → ClassDriver} {s : Oms}
    (h : Reach omsStep (fun _ _ => True) (.boot drivers) s) {i t : ℕ} {r : Ring RingByte}
    (hd : s.Drains i t) (hr : s.g.rxRoutine ≠ 0) (hring : r.Sound ringSize) :
    (∃ new, (omsRxDrain i true (s.setRing t i r)).trace = s.trace ++ new ∧
      ∀ c < omsCables, receivedOn c new =
        expected (s.port i c).refnum ((s.port i c).open_ c).rx.inSysex
          ((onCable c (frames (r.queue ringSize))).map RxFrame.packet)) ∧
    ((omsRxDrain i true (s.setRing t i r)).g.ifaces i).ports =
      (rxIface true).final (s.g.ifaces i).ports (frames (r.queue ringSize)) ∧
    (∀ fs, fs <+: frames (r.queue ringSize) → ∀ c < omsCables,
      NoDrops (s.port i c) ((rxIface true).final (s.g.ifaces i).ports fs c)) ∧
    ∀ j, ∀ c < omsCables,
      ((omsRxDrain i true (s.setRing t i r)).port j c).rx.count = 0 ∧
        NoDrops (s.port j c) ((omsRxDrain i true (s.setRing t i r)).port j c) := by
  have hok := PortsOk.reach h
  have hrings : ((s.setRing t i r).drivers t).rings i = r := by
    simp only [Oms.setRing, Oms.setDriver, Function.update_self]
  have hd' : (s.setRing t i r).Drains i t :=
    ⟨hd.lt, hd.table, hd.valid, by
      simpa only [Oms.setRing, Oms.setDriver, Function.update_self] using hd.count⟩
  obtain ⟨fs, s', r', heq, hdrained, -, -, -, hfs⟩ := omsRxDrain_spec hd' (hrings.symm ▸ hring) true
  rw [hrings] at hfs
  obtain rfl := hfs
  obtain ⟨new, hnew, -, -, hout⟩ := hdrained.trace
  have hok' : PortsOk s' := hdrained.portsOk (hok.congr fun _ => rfl)
  rw [heq]
  refine ⟨⟨new, hnew, ?_⟩, hdrained.ports, ?_, ?_⟩
  · intro c hc
    rw [receivedOn, hout hr]
    exact ((Mealy.demux_out c _ _).1).trans (rxPort_run hc cable_of_onCable (hok i c hc))
  · intro fs _ c hc
    exact (rxIface_ok true fs hc (hok i c hc)).2
  · intro j c hc
    refine ⟨(hok' j c hc).count, ?_⟩
    show NoDrops _ ((s'.g.ifaces j).ports c)
    by_cases hj : j = i
    · subst hj
      rw [hdrained.ports]
      exact (rxIface_ok true _ hc (hok j c hc)).2
    · rw [hdrained.others j hj]
      exact .refl _

/-- `omdvInit`, `omdvAddDevices` and the refnum 7 for cable 2. -/
def cableTwoEvents : List OmsEvent :=
  [.message (.init ⟨none, [], none, [(1, ⟨omsNoErr, some 0⟩)], 1⟩),
    .message (.addDevices true []),
    .message (.setPortReceiveRefNum (some ⟨1, 2⟩) 7)]

/-- A SysEx run on cable 2 with a Note On of cable 1 in between. -/
def cableTwoTransfer : List RingByte :=
  [0x24, 0xF0, 0x01, 0x02, 0x19, 0x90, 0x30, 0x50, 0x26, 0xF7, 0x00, 0x00].map (RingByte.mk · none)

theorem rx_cables_isolated_two :
    ∃ new, (omsRxDrain 0 true ((afterEvents cableTwoEvents).setRing 0 0
        (um9RingEnqueue ringSize ⟨some fun _ => default, 0, 0⟩ cableTwoTransfer).1)).trace =
          (afterEvents cableTwoEvents).trace ++ new ∧
      receivedOn 2 new = [(⟨omsStartCont, 3, 7, 0, [0xF0, 0x01, 0x02, 0x00]⟩, 7),
        (⟨omsEndCont, 1, 7, 0, [0xF7, 0x00, 0x00, 0x00]⟩, 7)] := by
  have hrun : RunOk omsStep (fun _ _ => True) (.boot fun _ => .single) cableTwoEvents := runOk_true
  have hreach := Reach.of_run hrun (show _ = some (afterEvents cableTwoEvents) from rfl)
  have hempty : Ring.Sound ringSize ⟨some fun _ => (default : RingByte), 0, 0⟩ :=
    Ring.sound_zero ringSize rfl rfl
  obtain ⟨⟨new, hnew, hrecv⟩, -⟩ := rx_cables_isolated hreach (i := 0) (t := 0)
    ⟨by decide, rfl, rfl, by decide⟩ (by decide)
    (um9RingEnqueue_sound ringSize_ok hempty cableTwoTransfer).1
  exact ⟨new, hnew, (hrecv 2 (by decide)).trans (by decide)⟩

end Usbmidi9
