/-
  USBMIDI9 — which streams `omdvStartMIDI2` resets.

  `oms_start_midi2` resets the streams of the ports that are marked valid on
  valid interfaces.  The receive path uses no others, but `oms_tx_send` stores
  the bytes of an unfinished SysEx on any port: also before the port was given a
  refnum, or before `omdvAddDevices`.  Such a carry stays (`carry_survives`).

  `streams_reset` is the result: after every run, the start leaves all ports at
  rest if and only if it reaches every port that holds a carry.
-/
import Usbmidi9.Oms.Backlog
import Usbmidi9.Oms.Isolation

namespace Usbmidi9

/-- No SysEx is under way on a port, in either direction, and nothing is pending. -/
structure OmsPort.AtRest (p : OmsPort) : Prop where
  inSysex : p.rx.inSysex = false
  pending : p.rx.count = 0
  carry : p.txCarryLen = 0

/-- A cable has a packet in the backlog of its interface. -/
def Oms.Backlogged (s : Oms) (i c : ℕ) : Prop :=
  ∃ t ∈ s.g.table, i < (s.drivers t).count ∧
    ∃ f ∈ frames (((s.drivers t).rings i).queue ringSize), f.packet.cable = c

/-- The ports that `oms_start_midi2` resets: those marked valid, if it binds a class
    driver, and on a valid interface those that are marked valid by then, which
    the discarded backlog may do. -/
def Oms.StartResets (s : Oms) (devices : List (ℤ × SymbolAnswer)) (i c : ℕ) : Prop :=
  (s.g.table = none ∧ omsFound s devices ≠ none ∧ (s.port i c).valid = true) ∨
    ((s.g.ifaces i).valid = true ∧ ((s.port i c).valid = true ∨ s.Backlogged i c))

theorem OmsPort.reset_atRest (p : OmsPort) (c : ℕ) : (p.reset c).AtRest := ⟨rfl, rfl, rfl⟩

/-! ## Discarding the backlog -/

/-- A packet marks its port valid and leaves the carry alone. -/
theorem omsRxPortPacket_carry (p : OmsPort) (cable : ℕ) (bytes : List UInt8) :
    (omsRxPortPacket p cable bytes).1.txCarryLen = p.txCarryLen ∧
      (omsRxPortPacket p cable bytes).1.valid = true := by
  have hcarry : (p.open_ cable).txCarryLen = p.txCarryLen := by
    unfold OmsPort.open_
    split_ifs <;> rfl
  have hvalid := p.open_valid cable
  unfold omsRxPortPacket
  simp only
  split
  · exact ⟨hcarry, hvalid⟩
  · exact ⟨hcarry, hvalid⟩

theorem rxPort_carry (deliver : Bool) (c : ℕ) (p : OmsPort) (fs : List RxFrame) :
    ((rxPort deliver c).final p fs).txCarryLen = p.txCarryLen ∧
      (fs ≠ [] → ((rxPort deliver c).final p fs).valid = true) := by
  induction fs generalizing p with
  | nil => exact ⟨rfl, fun h => absurd rfl h⟩
  | cons f fs ih =>
    obtain ⟨hcarry, hvalid⟩ := omsRxPortPacket_carry p c f.packet.bytes
    obtain ⟨hcarry', hvalid'⟩ := ih (omsRxPortPacket p c f.packet.bytes).1
    refine ⟨hcarry'.trans hcarry, fun _ => ?_⟩
    by_cases hfs : fs = []
    · subst hfs
      exact hvalid
    · exact hvalid' hfs

/-- The ports of an interface after its backlog is discarded. -/
def Oms.discarded (s : Oms) (i : ℕ) : ℕ → OmsPort :=
  match s.g.table with
  | none => (s.g.ifaces i).ports
  | some t =>
    if (s.g.ifaces i).valid = true ∧ i < (s.drivers t).count then
      (rxIface false).final (s.g.ifaces i).ports
        (frames (((s.drivers t).rings i).queue ringSize))
    else (s.g.ifaces i).ports

theorem Oms.discarded_congr {s s' : Oms} {i : ℕ} (ht : s'.g.table = s.g.table)
    (hi : s'.g.ifaces i = s.g.ifaces i) (hc : ∀ t, (s'.drivers t).count = (s.drivers t).count)
    (hr : ∀ t, (s'.drivers t).rings i = (s.drivers t).rings i) : s'.discarded i = s.discarded i := by
  unfold discarded
  rw [ht, hi]
  cases s.g.table with
  | none => rfl
  | some t => simp only [hc, hr]

theorem omsRxDrain_discarded {s : Oms} (hs : RingsSound s) {i : ℕ} (hi : i < omsMaxInterfaces) :
    ((omsRxDrain i false s).g.ifaces i).ports = s.discarded i ∧
      ∀ j ≠ i, (omsRxDrain i false s).g.ifaces j = s.g.ifaces j := by
  by_cases hd : ∃ t, s.Drains i t
  · obtain ⟨t, hd⟩ := hd
    obtain ⟨fs, s', r, heq, hdrained, -, -, -, rfl⟩ := omsRxDrain_spec hd (hs t i) false
    have hdisc : s.discarded i = (rxIface false).final (s.g.ifaces i).ports
        (frames (((s.drivers t).rings i).queue ringSize)) := by
      unfold Oms.discarded
      rw [hd.table]
      exact if_pos ⟨hd.valid, hd.count⟩
    rw [heq, hdisc]
    exact ⟨hdrained.ports, hdrained.others⟩
  · have hdisc : s.discarded i = (s.g.ifaces i).ports := by
      unfold Oms.discarded
      cases ht : s.g.table with
      | none => rfl
      | some t => exact if_neg fun h => hd ⟨t, hi, ht, h.1, h.2⟩
    rw [omsRxDrain_skip (not_exists.1 hd), hdisc]
    exact ⟨rfl, fun _ _ => rfl⟩

/-- **The backlog of every interface is discarded**, each on the ports of its own. -/
theorem omsRxDrainAll_discarded {s : Oms} (hs : RingsSound s) {i : ℕ} (hi : i < omsMaxInterfaces) :
    ((omsRxDrainAll false s).g.ifaces i).ports = s.discarded i ∧
      ((omsRxDrainAll false s).g.ifaces i).valid = (s.g.ifaces i).valid := by
  -- after `n` interfaces: those below `n` are done, the others untouched
  have hfold : ∀ n ≤ omsMaxInterfaces,
      let s' := (List.range n).foldl
        (fun s i => if (s.g.ifaces i).valid then omsRxDrain i false s else s) s
      RingsSound s' ∧ s'.g.table = s.g.table ∧
        (∀ t, (s'.drivers t).count = (s.drivers t).count) ∧
        (∀ j, (s'.g.ifaces j).valid = (s.g.ifaces j).valid) ∧
        (∀ j < n, (s'.g.ifaces j).ports = s.discarded j) ∧
        ∀ j ≥ n, s'.g.ifaces j = s.g.ifaces j ∧
          ∀ t, (s'.drivers t).rings j = (s.drivers t).rings j := by
    intro n
    induction n with
    | zero =>
      intro _
      exact ⟨hs, rfl, fun _ => rfl, fun _ => rfl, nofun, fun _ _ => ⟨rfl, fun _ => rfl⟩⟩
    | succ n ih =>
      intro hn
      obtain ⟨hsound, htable, hcount, hvalid, hdone, hrest⟩ := ih (by omega)
      rw [List.range_succ, List.foldl_append, List.foldl_cons, List.foldl_nil]
      generalize (List.range n).foldl
        (fun s i => if (s.g.ifaces i).valid then omsRxDrain i false s else s) s = s' at *
      obtain ⟨hiface, hrings⟩ := hrest n (le_refl n)
      have hdisc : s'.discarded n = s.discarded n := Oms.discarded_congr htable hiface hcount hrings
      by_cases hv : (s'.g.ifaces n).valid = true
      · rw [if_pos hv]
        obtain ⟨hports, hothers⟩ := omsRxDrain_discarded hsound (Nat.lt_of_succ_le hn)
        obtain ⟨ht, -, -, hvs, hcs, hrs⟩ := omsRxDrain_frame n false s'
        refine ⟨hsound.drain n false, ht.trans htable, fun t => (hcs t).trans (hcount t),
          fun j => (hvs j).trans (hvalid j), ?_, ?_⟩
        · intro j hj
          by_cases hjn : j = n
          · subst hjn
            exact hports.trans hdisc
          · rw [hothers j hjn]
            exact hdone j (by omega)
        · intro j hj
          obtain ⟨hifj, hrj⟩ := hrest j (by omega)
          refine ⟨(hothers j (by omega)).trans hifj, ?_⟩
          intro t
          exact (hrs t j (.inr (by omega))).trans (hrj t)
      · rw [if_neg hv]
        refine ⟨hsound, htable, hcount, hvalid, ?_, ?_⟩
        · intro j hj
          by_cases hjn : j = n
          · subst hjn
            rw [← hdisc, Oms.discarded, hiface]
            rw [hiface] at hv
            split
            · rfl
            · rw [if_neg (fun h => hv h.1)]
          · exact hdone j (by omega)
        · intro j hj
          exact hrest j (by omega)
  unfold omsRxDrainAll
  split_ifs with ht
  · rw [Oms.discarded, ht]
    exact ⟨rfl, rfl⟩
  · obtain ⟨-, -, -, hvalid, hdone, -⟩ := hfold omsMaxInterfaces (le_refl _)
    exact ⟨hdone i hi, hvalid i⟩

/-! ## Between events -/

/-- Between events: the rings are sound, no interface is valid without a class
    driver, and nothing is pending; a receive stream that `oms_start_midi2` would
    not reset is not inside a SysEx. -/
structure StreamsInv (s : Oms) : Prop where
  rings : RingsSound s
  unbound : s.g.table = none → ∀ i, (s.g.ifaces i).valid = false
  ports : PortsOk s
  unused : ∀ i, ∀ c < omsCables, ¬((s.g.ifaces i).valid = true ∧ (s.port i c).valid = true) →
    (s.port i c).rx.inSysex = false

namespace StreamsInv
variable {s s' : Oms}

/-- A port of an interface that was drained, and that was not used before or now. -/
theorem drain (h : StreamsInv s) (i : ℕ) (deliver : Bool) :
    StreamsInv (omsRxDrain i deliver s) := by
  obtain ⟨ht, -, -, hv, -, -⟩ := omsRxDrain_frame i deliver s
  refine ⟨h.rings.drain i deliver, ?_, h.ports.drain i deliver, ?_⟩
  · intro hn j
    rw [hv]
    exact h.unbound (ht ▸ hn) j
  intro j c hc hoff
  by_cases hd : ∃ t, s.Drains i t
  swap
  · rw [omsRxDrain_skip (not_exists.1 hd)] at hoff ⊢
    exact h.unused j c hc hoff
  obtain ⟨t, hd⟩ := hd
  obtain ⟨fs, s', r, heq, hdrained⟩ := omsRxDrain_drained hd deliver
  rw [hv] at hoff
  rw [heq] at hoff ⊢
  change ¬(_ ∧ ((s'.g.ifaces j).ports c).valid = true) at hoff
  show ((s'.g.ifaces j).ports c).rx.inSysex = false
  by_cases hj : j = i
  · subst hj
    have hport : (s'.g.ifaces j).ports c = (rxPort deliver c).final (s.port j c) (onCable c fs) := by
      rw [hdrained.ports]
      exact (Mealy.demux_out c _ fs).2
    rw [hport] at hoff ⊢
    by_cases hfs : onCable c fs = []
    · rw [hfs] at hoff ⊢
      exact h.unused j c hc hoff
    · exact absurd ⟨hd.valid, (rxPort_carry deliver c _ _).2 hfs⟩ hoff
  · rw [hdrained.others j hj] at hoff ⊢
    exact h.unused j c hc hoff

theorem moved (h : StreamsInv s) (hm : PortsMoved s s') : StreamsInv s' := by
  refine ⟨h.rings.congr fun t => by rw [hm.drivers], ?_, h.ports.moved hm.port, ?_⟩
  · intro hn i
    rw [hm.valid]
    exact h.unbound (hm.table ▸ hn) i
  · intro i c hc hoff
    rw [hm.valid] at hoff
    rcases hm.port i c hc with ⟨hrx, hvalid⟩ | hrx
    · rw [hvalid] at hoff
      rw [hrx]
      exact h.unused i c hc hoff
    · rw [hrx]
      rfl

theorem start (h : StreamsInv s) : StreamsInv (omsStart s) := by
  have hall : StreamsInv (omsRxDrainAll false s) :=
    omsRxDrainAll_inv (fun s i hs => StreamsInv.drain hs i false) h
  refine ⟨hall.rings, hall.unbound, h.ports.start, ?_⟩
  intro i c hc hoff
  have hport : (omsStart s).port i c =
      if ((omsRxDrainAll false s).g.ifaces i).valid ∧ ((omsRxDrainAll false s).port i c).valid
      then ((omsRxDrainAll false s).port i c).reset c else (omsRxDrainAll false s).port i c := rfl
  rw [hport] at hoff ⊢
  split_ifs at hoff ⊢ with hused
  · rfl
  · exact hall.unused i c hc hused

/-- **Every move keeps the invariant.** -/
theorem move {F : Prop} (h : StreamsInv s) (hm : OmsMove F s s') : StreamsInv s' := by
  have hrings := h.rings.move hm
  have hports := h.ports.move hm
  cases hm with
  | quiet hq =>
    refine ⟨hrings, ?_, hports, ?_⟩
    · intro hn i
      rw [hq.ifaces]
      exact h.unbound (hq.table ▸ hn) i
    · intro i c hc hoff
      rw [Oms.port, hq.ifaces] at hoff ⊢
      exact h.unused i c hc hoff
  | ports hp => exact h.moved hp
  | drain i _ => exact h.drain i _
  | bind t deviceRef _ =>
    exact ⟨hrings, fun hn => absurd hn (by simp [Oms.bound, Oms.upd]), hports, h.unused⟩
  | @validate t i ht _ _ =>
    refine ⟨hrings, fun hn => absurd (ht.symm.trans hn) (by simp), hports, ?_⟩
    intro j c hc hoff
    by_cases hj : j = i
    · subst hj
      simp only [Oms.port, omsValidate, Oms.upd, Function.update_self, true_and] at hoff ⊢
      exact h.unused j c hc fun hu => hoff hu.2
    · simp only [Oms.port, omsValidate, Oms.upd, Function.update_of_ne hj] at hoff ⊢
      exact h.unused j c hc hoff
  | @clear g hi _ =>
    refine ⟨hrings, fun _ i => ?_, hports, fun i c _ _ => ?_⟩
    · show (g.ifaces i).valid = false
      rw [hi]
      rfl
    · show ((g.ifaces i).ports c).rx.inSysex = false
      rw [hi]
      rfl
  | start => exact h.start
  | stop => exact ⟨hrings, h.unbound, hports, h.unused⟩
  | store t i data => exact ⟨hrings, h.unbound, hports, h.unused⟩
  | appear t buf => exact ⟨hrings, h.unbound, hports, h.unused⟩

/-- In every run. -/
theorem reach {drivers : ℕ → ClassDriver} (hdrivers : ∀ t, (drivers t).Fresh)
    (h : Reach omsStep (fun _ _ => True) (.boot drivers) s) : StreamsInv s := by
  have hboot : StreamsInv (.boot drivers) :=
    ⟨.boot hdrivers, fun _ _ => rfl, fun _ c _ => OmsPort.zero_ok c, fun _ _ _ _ => rfl⟩
  exact oms_inv (F := False) (fun _ _ hs hm => hs.move hm) hboot (h.mono fun _ _ _ => False.elim)

end StreamsInv

/-! ## The start -/

section
variable {s : Oms}

/-- A port after the start. -/
theorem omsStart_port (hs : RingsSound s) {i : ℕ} (hi : i < omsMaxInterfaces) (c : ℕ) :
    (omsStart s).port i c =
      if (s.g.ifaces i).valid = true ∧ (s.discarded i c).valid = true
      then (s.discarded i c).reset c else s.discarded i c := by
  obtain ⟨hports, hvalid⟩ := omsRxDrainAll_discarded hs hi
  have hport : (omsStart s).port i c =
      if ((omsRxDrainAll false s).g.ifaces i).valid = true ∧
        (((omsRxDrainAll false s).g.ifaces i).ports c).valid = true
      then (((omsRxDrainAll false s).g.ifaces i).ports c).reset c
      else ((omsRxDrainAll false s).g.ifaces i).ports c := rfl
  rw [hport, hports, hvalid]

theorem Oms.discarded_off {i : ℕ} (h : (s.g.ifaces i).valid = false) :
    s.discarded i = (s.g.ifaces i).ports := by
  unfold discarded
  split
  · rfl
  · rw [if_neg (fun hv => by simp [h] at hv)]

/-- What discarding the backlog does to a port of a valid interface. -/
theorem Oms.discarded_on {i : ℕ} (h : (s.g.ifaces i).valid = true) (c : ℕ) :
    (s.Backlogged i c ∧ (s.discarded i c).valid = true) ∨
      (¬s.Backlogged i c ∧ s.discarded i c = s.port i c) := by
  by_cases hd : ∃ t, s.g.table = some t ∧ i < (s.drivers t).count
  swap
  · refine .inr ⟨fun ⟨t, ht, hc, _⟩ => hd ⟨t, ht, hc⟩, ?_⟩
    unfold discarded
    cases ht : s.g.table with
    | none => rfl
    | some t =>
      simp only
      rw [if_neg fun hv => hd ⟨t, ht, hv.2⟩]
      rfl
  obtain ⟨t, ht, hcount⟩ := hd
  have hdisc : s.discarded i c = (rxPort false c).final (s.port i c)
      (onCable c (frames (((s.drivers t).rings i).queue ringSize))) := by
    unfold discarded
    rw [ht]
    simp only [h, hcount, and_self, if_true]
    exact (Mealy.demux_out c _ _).2
  have hiff : s.Backlogged i c ↔ onCable c (frames (((s.drivers t).rings i).queue ringSize)) ≠ [] := by
    rw [onCable, Ne, List.filter_eq_nil_iff]
    constructor
    · rintro ⟨t', ht', -, f, hf, hc⟩ hnone
      obtain rfl : t = t' := Option.some.inj (ht.symm.trans ht')
      exact hnone f hf (decide_eq_true hc)
    · intro hsome
      simp only [not_forall, decide_eq_true_eq, not_not] at hsome
      obtain ⟨f, hf, hc⟩ := hsome
      exact ⟨t, ht, hcount, f, hf, hc⟩
  by_cases hb : s.Backlogged i c
  · refine .inl ⟨hb, ?_⟩
    rw [hdisc]
    exact (rxPort_carry false c _ _).2 (hiff.1 hb)
  · refine .inr ⟨hb, ?_⟩
    rw [hdisc, not_not.1 (mt hiff.2 hb)]
    rfl

/-- A port that is not in use is at rest if it holds no carry. -/
theorem StreamsInv.atRest_iff (h : StreamsInv s) {i c : ℕ} (hc : c < omsCables)
    (hoff : ¬((s.g.ifaces i).valid = true ∧ (s.port i c).valid = true)) :
    (s.port i c).AtRest ↔ (s.port i c).txCarryLen = 0 :=
  ⟨OmsPort.AtRest.carry, fun hcarry => ⟨h.unused i c hc hoff, (h.ports i c hc).count, hcarry⟩⟩

/-- Without valid interfaces the start resets nothing. -/
theorem omsStart_idle (h : ∀ i, (s.g.ifaces i).valid = false) (i c : ℕ) :
    (omsStart s).port i c = s.port i c := by
  show (if _ then _ else _) = _
  rw [omsRxDrainAll_idle h, if_neg (by simp [h])]
  rfl

theorem attached_port (s : Oms) (t : ℕ) (deviceRef : ℤ) (i c : ℕ) :
    (s.attached t deviceRef).port i c =
      if (s.port i c).valid then (s.port i c).reset c else s.port i c := by
  have hquiet := omsRegisterCallbacks_quiet (omsResetPorts (s.bound t deviceRef)) t
  rw [Oms.port, Oms.attached, hquiet.ifaces]
  rfl

/-- **One port, if no class driver is bound**: the reset is that of a binding. -/
theorem omsStartMidi2_unbound (h : StreamsInv s) (ht : s.g.table = none)
    (devices : List (ℤ × SymbolAnswer)) (i c : ℕ) :
    (omsStartMidi2 s devices).port i c =
      if omsFound s devices ≠ none ∧ (s.port i c).valid = true
      then (s.port i c).reset c else s.port i c := by
  have hv := h.unbound ht
  unfold omsStartMidi2
  obtain ⟨n, ⟨hnone, heq⟩ | ⟨t, deviceRef, hsome, heq⟩⟩ := omsLocateDispatch_cases ht devices
  · rw [heq, omsStart_idle (s := s.withFailures n) hv, if_neg (by simp [hnone])]
    rfl
  · obtain ⟨hkept, -⟩ := attached_kept (s.withFailures n) t deviceRef
    have hv' : ∀ j, (((s.withFailures n).attached t deviceRef).g.ifaces j).valid = false :=
      fun j => (hkept.valid j).trans (hv j)
    have hsame : (s.withFailures n).port i c = s.port i c := rfl
    rw [heq, omsRxDrainAll_idle hv', omsStart_idle hv', attached_port, hsame, hsome]
    simp only [ne_eq, reduceCtorEq, not_false_eq_true, true_and]

/-- **One port.** -/
theorem omsStartMidi2_port (h : StreamsInv s) (devices : List (ℤ × SymbolAnswer)) {i c : ℕ}
    (hi : i < omsMaxInterfaces) (hc : c < omsCables) :
    ((omsStartMidi2 s devices).port i c).AtRest ↔
      (s.port i c).txCarryLen = 0 ∨ s.StartResets devices i c := by
  have hreset : ∀ {p : OmsPort} {P Q : Prop}, Q → ((p.reset c).AtRest ↔ P ∨ Q) :=
    fun {p P Q} hq => ⟨fun _ => .inr hq, fun _ => p.reset_atRest c⟩
  have hkept : ∀ {P : Prop}, ¬P →
      ¬((s.g.ifaces i).valid = true ∧ (s.port i c).valid = true) →
      ((s.port i c).AtRest ↔ (s.port i c).txCarryLen = 0 ∨ P) := by
    intro P hP hoff
    rw [h.atRest_iff hc hoff, or_iff_left hP]
  by_cases ht : s.g.table = none
  · have hv := h.unbound ht i
    have hoff : ¬((s.g.ifaces i).valid = true ∧ (s.port i c).valid = true) := by simp [hv]
    rw [omsStartMidi2_unbound h ht]
    split_ifs with hr
    · exact hreset (.inl ⟨ht, hr.1, hr.2⟩)
    · apply hkept _ hoff
      rintro (⟨-, hfound, hvalid⟩ | ⟨hv', -⟩)
      · exact hr ⟨hfound, hvalid⟩
      · exact absurd (hv.symm.trans hv') (by simp)
  have hlocated : (omsLocateDispatch s devices).1 = s := by rw [omsLocateDispatch, if_pos ht]
  rw [omsStartMidi2, hlocated, omsStart_port h.rings hi]
  by_cases hv : (s.g.ifaces i).valid = true
  swap
  · have hsame : s.discarded i c = s.port i c :=
      congrFun (Oms.discarded_off (Bool.eq_false_iff.2 hv)) c
    rw [hsame, if_neg fun hu => hv hu.1]
    apply hkept _ fun hu => hv hu.1
    rintro (⟨ht', -⟩ | ⟨hv', -⟩)
    · exact ht ht'
    · exact hv hv'
  rcases Oms.discarded_on hv c with ⟨hb, hvalid⟩ | ⟨hb, hsame⟩
  · rw [if_pos ⟨hv, hvalid⟩]
    exact hreset (.inr ⟨hv, .inr hb⟩)
  rw [hsame]
  split_ifs with hu
  · exact hreset (.inr ⟨hv, .inl hu.2⟩)
  · apply hkept _ hu
    rintro (⟨ht', -⟩ | ⟨-, hp | hb'⟩)
    · exact ht ht'
    · exact hu ⟨hv, hp⟩
    · exact hb hb'

end

/-- **The start resets every stream** exactly if it reaches every port that holds a
    carry: after any sequence of messages, notifications, sends and receive events,
    all 8 × 16 ports are at rest when `omdvStartMIDI2` returns if and only if each of
    them has no carry before, or is marked valid while a class driver is bound by
    this message, or is marked valid on a valid interface, by the latest when the
    backlog is discarded. -/
theorem streams_reset {drivers : ℕ → ClassDriver} (hdrivers : ∀ t, (drivers t).Fresh) {s : Oms}
    (h : Reach omsStep (fun _ _ => True) (.boot drivers) s) (devices : List (ℤ × SymbolAnswer)) :
    (∀ i < omsMaxInterfaces, ∀ c < omsCables, ((omsStartMidi2 s devices).port i c).AtRest) ↔
      ∀ i < omsMaxInterfaces, ∀ c < omsCables,
        (s.port i c).txCarryLen = 0 ∨ s.StartResets devices i c := by
  have hinv := StreamsInv.reach hdrivers h
  refine forall₄_congr ?_
  intro i hi c hc
  exact omsStartMidi2_port hinv devices hi hc

/-- A SysEx that begins. -/
def sysexBegin : OmsMidiPacket := ⟨omsStartCont, 2, [0xF0, 0x41, 0, 0], rfl⟩

/-- A SysEx begins on cable 0 of an interface, without a refnum. -/
def carryEvents : List OmsEvent :=
  [.message (.init ⟨none, [], none, [(1, ⟨omsNoErr, some 0⟩)], 1⟩),
    .message (.addDevices true []),
    .send (some sysexBegin) 0x0100]

/-- The carry of a port that is given a refnum afterwards. -/
theorem streams_reset_configured :
    let s := afterEvents (carryEvents ++ [.message (.setPortReceiveRefNum (some ⟨1, 0⟩) 5)])
    (s.port 0 0).txCarryLen = 2 ∧ ∀ i < omsMaxInterfaces, ∀ c < omsCables,
      ((omsStartMidi2 s []).port i c).AtRest := by
  intro s
  have hrun : runEvents omsStep (.boot fun _ => .single)
      (carryEvents ++ [.message (.setPortReceiveRefNum (some ⟨1, 0⟩) 5)]) = some s := rfl
  have hreach : Reach omsStep (fun _ _ => True) (.boot fun _ => .single) s :=
    .of_run runOk_true hrun
  have hcarry : ∀ i < omsMaxInterfaces, ∀ c < omsCables,
      (s.port i c).txCarryLen = 0 ∨ i = 0 ∧ c = 0 := by
    decide +kernel
  have hused : (s.g.ifaces 0).valid = true ∧ (s.port 0 0).valid = true := by decide +kernel
  refine ⟨by decide +kernel, (streams_reset (fun _ => ClassDriver.single_fresh) hreach []).2 ?_⟩
  intro i hi c hc
  rcases hcarry i hi c hc with h | ⟨rfl, rfl⟩
  · exact .inl h
  · exact .inr (.inr ⟨hused.1, .inl hused.2⟩)

/-- **A carry survives the start** on a port that was not given a refnum. -/
theorem carry_survives :
    ClassDriver.single.Fresh ∧
      Reach omsStep (fun _ _ => True) (.boot fun _ => .single) (afterEvents carryEvents) ∧
      ((omsStartMidi2 (afterEvents carryEvents) []).port 0 0).txCarryLen = 2 ∧
      ¬∀ i < omsMaxInterfaces, ∀ c < omsCables,
        ((omsStartMidi2 (afterEvents carryEvents) []).port i c).AtRest := by
  have hrun : runEvents omsStep (.boot fun _ => .single) carryEvents =
      some (afterEvents carryEvents) := rfl
  have hcarry : ((omsStartMidi2 (afterEvents carryEvents) []).port 0 0).txCarryLen = 2 := by
    decide +kernel
  refine ⟨ClassDriver.single_fresh, .of_run runOk_true hrun, hcarry, ?_⟩
  intro h
  have hzero := (h 0 (by decide) 0 (by decide)).carry
  exact absurd (hcarry.symm.trans hzero) (by decide)

end Usbmidi9
