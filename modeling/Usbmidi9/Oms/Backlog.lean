/-
  USBMIDI9 — which bytes reach OMS.

  `oms_start_midi2` discards the backlog before it starts to deliver, but only
  of the interfaces that are valid by then.  An interface that
  `oms_add_devices` marks valid while MIDI is running still has its backlog,
  and the next drain delivers it (`backlog_delivered`).

  If `omdvAddDevices` finds no such backlog, every byte in a ring that a drain
  reads while MIDI is running arrived in the current session (`BacklogInv`), and
  so did the bytes of every message that OMS got (`backlog_discarded`).
-/
import Usbmidi9.Oms.Moves

namespace Usbmidi9

/-- A message reaches OMS in the session in which its bytes arrived. -/
def OmsEntry.Fresh : OmsEntry → Prop
  | .received source session _ _ => ∀ b ∈ source, b.session = some session
  | _ => True

theorem OmsEntry.fresh_of_delivery {e : OmsEntry} (h : e.delivery = none) : e.Fresh := by
  cases e with
  | received => simp [OmsEntry.delivery] at h
  | _ => trivial

/-! ## The rings -/

/-- The rings of all class drivers are sound. -/
def RingsSound (s : Oms) : Prop := ∀ t i, ((s.drivers t).rings i).Sound ringSize

theorem Oms.rings_setRing (s : Oms) (t i : ℕ) (r : Ring RingByte) (t' j : ℕ) :
    ((s.setRing t i r).drivers t').rings j =
      if t' = t ∧ j = i then r else (s.drivers t').rings j := by
  by_cases ht : t' = t
  · subst ht
    by_cases hj : j = i
    · subst hj; simp [Oms.setRing, Oms.setDriver]
    · simp [Oms.setRing, Oms.setDriver, hj]
  · simp [Oms.setRing, Oms.setDriver, ht]

theorem Oms.count_setRing (s : Oms) (t i : ℕ) (r : Ring RingByte) (t' : ℕ) :
    ((s.setRing t i r).drivers t').count = (s.drivers t').count := by
  by_cases ht : t' = t
  · subst ht; simp [Oms.setRing, Oms.setDriver]
  · simp [Oms.setRing, Oms.setDriver, ht]

theorem omsAppear_other (s : Oms) {t t' : ℕ} (h : t' ≠ t) (buf : ℕ → RingByte) :
    (omsAppear s t buf).drivers t' = s.drivers t' := Function.update_of_ne h ..

theorem omsAppear_rings (s : Oms) (t : ℕ) (buf : ℕ → RingByte) (j : ℕ) :
    ((omsAppear s t buf).drivers t).rings j =
      if j = (s.drivers t).count then ⟨some buf, 0, 0⟩ else (s.drivers t).rings j := by
  simp only [omsAppear, Oms.setDriver, Function.update_self, Function.update_apply]

namespace RingsSound
variable {s s' : Oms}

theorem boot {drivers : ℕ → ClassDriver} (h : ∀ t, (drivers t).Fresh) :
    RingsSound (.boot drivers) := by
  intro t i
  obtain ⟨hh, ht, -⟩ := (h t).2 i
  exact Ring.sound_zero ringSize hh ht

theorem congr (h : RingsSound s) (hr : ∀ t, (s'.drivers t).rings = (s.drivers t).rings) :
    RingsSound s' := by
  intro t i
  rw [hr]
  exact h t i

theorem setRing (h : RingsSound s) (t i : ℕ) {r : Ring RingByte} (hr : r.Sound ringSize) :
    RingsSound (s.setRing t i r) := by
  intro t' j
  rw [Oms.rings_setRing]
  split_ifs
  · exact hr
  · exact h t' j

theorem drain (h : RingsSound s) (i : ℕ) (deliver : Bool) :
    RingsSound (omsRxDrain i deliver s) := by
  by_cases hd : ∃ t, s.Drains i t
  · obtain ⟨t, hd⟩ := hd
    obtain ⟨fs, s', r, heq, hdrained, hr, -⟩ := omsRxDrain_spec hd (h t i) deliver
    rw [heq]
    exact setRing (h.congr fun t => by rw [hdrained.drivers]) t i hr
  · rw [omsRxDrain_skip (not_exists.1 hd)]
    exact h

theorem store (h : RingsSound s) (t i : ℕ) (data : List RingByte) :
    RingsSound (s.setRing t i (um9RingEnqueue ringSize ((s.drivers t).rings i) data).1) :=
  h.setRing t i (um9RingEnqueue_sound ringSize_ok (h t i) data).1

theorem appear (h : RingsSound s) (t : ℕ) (buf : ℕ → RingByte) :
    RingsSound (omsAppear s t buf) := by
  intro t' j
  by_cases ht : t' = t
  · subst ht
    rw [omsAppear_rings]
    split_ifs
    · exact (um9RingReset_spec ringSize ⟨some buf, 0, 0⟩).1
    · exact h t' j
  · rw [omsAppear_other s ht]
    exact h t' j

/-- **Every move keeps the rings sound.** -/
theorem move {F : Prop} (h : RingsSound s) (hm : OmsMove F s s') : RingsSound s' := by
  cases hm with
  | quiet hq => exact h.congr hq.rings
  | ports hp => exact h.congr fun t => by rw [hp.drivers]
  | drain i _ => exact h.drain i _
  | bind t deviceRef _ => exact h
  | validate _ _ _ => exact h
  | clear _ _ => exact h
  | start =>
    have hall : RingsSound (omsRxDrainAll false s) :=
      omsRxDrainAll_inv (fun s i hs => RingsSound.drain hs i false) h
    exact hall
  | stop => exact h
  | store t i data => exact h.store t i _
  | appear t buf => exact h.appear t buf

theorem moves {F : Prop} (h : RingsSound s) (hm : OmsMoves F s s') : RingsSound s' := by
  induction hm with
  | refl => exact h
  | tail _ hm ih => exact ih.move hm

end RingsSound

/-! ## The invariant -/

/-- The rings are sound, no interface is valid without a class driver, the rings
    that a drain reads are fresh, and OMS got fresh bytes only. -/
structure BacklogInv (s : Oms) : Prop where
  sound : ∀ t i, ((s.drivers t).rings i).Sound ringSize
  unbound : s.g.table = none → ∀ i, (s.g.ifaces i).valid = false
  fresh : ∀ t i, s.Drains i t → s.FreshRing t i
  trace : ∀ e ∈ s.trace, e.Fresh

section
variable {s s' : Oms}

/-! ## Drains -/

theorem Oms.drains_drain {i j t : ℕ} {deliver : Bool} (h : (omsRxDrain i deliver s).Drains j t) :
    s.Drains j t := by
  obtain ⟨ht, -, -, hv, hc, -⟩ := omsRxDrain_frame i deliver s
  exact ⟨h.lt, ht ▸ h.table, hv j ▸ h.valid, hc t ▸ h.count⟩

/-- A drain reads its ring to the end. -/
theorem omsRxDrain_empties (hs : RingsSound s) {i t : ℕ}
    (hd : s.Drains i t) (deliver : Bool) :
    (((omsRxDrain i deliver s).drivers t).rings i).queue ringSize = [] := by
  obtain ⟨fs, s', r, heq, -, -, hempty, -⟩ := omsRxDrain_spec hd (hs t i) deliver
  rw [heq]
  simpa only [Oms.setRing, Oms.setDriver, Function.update_self] using hempty

namespace BacklogInv

/-- **A drain** delivers fresh bytes only. -/
theorem drain (h : BacklogInv s) (i : ℕ) {deliver : Bool}
    (hm : deliver = true → s.g.midiStarted = true) : BacklogInv (omsRxDrain i deliver s) := by
  obtain ⟨htable, hstarted, hsession, hvalid, -, hrings⟩ := omsRxDrain_frame i deliver s
  constructor
  · exact RingsSound.drain h.sound i deliver
  · intro ht j
    rw [hvalid]
    exact h.unbound (htable ▸ ht) j
  · intro t j hd hrun b hb
    have hd' := Oms.drains_drain hd
    by_cases hj : j = i
    · subst hj
      rw [omsRxDrain_empties h.sound hd'] at hb
      exact absurd hb List.not_mem_nil
    · rw [hrings t j (.inr hj)] at hb
      rw [hsession]
      exact h.fresh t j hd' (hstarted ▸ hrun) b hb
  · by_cases hd : ∃ t, s.Drains i t
    · obtain ⟨t, hd⟩ := hd
      obtain ⟨fs, s', r, heq, hdrained, -, -, hsource, -⟩ := omsRxDrain_spec hd (h.sound t i) deliver
      obtain ⟨new, hnew, hsilent, hfrom, -⟩ := hdrained.trace
      intro e he
      have he' : e ∈ s.trace ++ new := by
        rw [heq] at he
        exact hnew ▸ he
      rcases List.mem_append.1 he' with hold | hadded
      · exact h.trace e hold
      cases deliver with
      | false =>
        rw [hsilent rfl] at hadded
        exact absurd hadded List.not_mem_nil
      | true =>
        have hf := hfrom e hadded
        cases e with
        | received source session pkt ioRefNum =>
          obtain ⟨rfl, f, hfs, rfl⟩ := hf
          intro b hb
          exact h.fresh t i hd (hm rfl) b (hsource f hfs b hb)
        | _ => trivial
    · rw [omsRxDrain_skip (not_exists.1 hd)]
      exact h.trace

/-- **Discarding the backlog** leaves no byte in a ring that a drain reads. -/
theorem discard (h : BacklogInv s) : BacklogInv (omsRxDrainAll false s) ∧
    ∀ t i, (omsRxDrainAll false s).Drains i t →
      (((omsRxDrainAll false s).drivers t).rings i).queue ringSize = [] := by
  -- the interfaces in `done` were drained before those of `l`
  have hfold : ∀ (l done : List ℕ) (s : Oms), BacklogInv s →
      (∀ t, ∀ i ∈ done, s.Drains i t → ((s.drivers t).rings i).queue ringSize = []) →
      let s' := l.foldl (fun s i => if (s.g.ifaces i).valid then omsRxDrain i false s else s) s
      BacklogInv s' ∧ ∀ t, ∀ i ∈ done ++ l, s'.Drains i t →
        ((s'.drivers t).rings i).queue ringSize = [] := by
    intro l
    induction l with
    | nil =>
      intro done s hs hdone
      simpa using ⟨hs, hdone⟩
    | cons i l ih =>
      intro done s hs hdone
      rw [List.append_cons, List.foldl_cons]
      by_cases hv : (s.g.ifaces i).valid = true
      · rw [if_pos hv]
        refine ih _ _ (hs.drain i nofun) ?_
        intro t j hj hd
        have hd' := Oms.drains_drain hd
        by_cases hji : j = i
        · subst hji
          exact omsRxDrain_empties hs.sound hd' false
        · obtain ⟨-, -, -, -, -, hrings⟩ := omsRxDrain_frame i false s
          rw [hrings t j (.inr hji)]
          exact hdone t j (by simpa [hji] using hj) hd'
      · rw [if_neg hv]
        refine ih _ _ hs ?_
        intro t j hj hd
        rcases List.mem_append.1 hj with hj | hj
        · exact hdone t j hj hd
        · obtain rfl := List.mem_singleton.1 hj
          exact absurd hd.valid hv
  obtain ⟨hinv, hempty⟩ := hfold (List.range omsMaxInterfaces) [] s h (by simp)
  unfold omsRxDrainAll
  split_ifs with ht
  · refine ⟨h, ?_⟩
    intro t i hd
    exact absurd (ht.symm.trans hd.table) (by simp)
  · refine ⟨hinv, ?_⟩
    intro t i hd
    exact hempty t i (by simpa using hd.lt) hd

/-! ## The other moves -/

theorem quiet (h : BacklogInv s) (hq : OmsQuiet s s') : BacklogInv s' := by
  constructor
  · exact RingsSound.congr h.sound hq.rings
  · intro ht i
    rw [hq.ifaces]
    exact h.unbound (hq.table ▸ ht) i
  · intro t i hd hrun b hb
    have hd' : s.Drains i t := ⟨hd.lt, hq.table ▸ hd.table, hq.ifaces ▸ hd.valid, hq.count t ▸ hd.count⟩
    rw [hq.rings] at hb
    rw [hq.session]
    exact h.fresh t i hd' (hq.midiStarted ▸ hrun) b hb
  · obtain ⟨new, hnew, hnone⟩ := hq.trace
    intro e he
    rw [hnew] at he
    rcases List.mem_append.1 he with hold | hadded
    · exact h.trace e hold
    · exact OmsEntry.fresh_of_delivery (hnone e hadded)

theorem ports (h : BacklogInv s) (hp : PortsMoved s s') : BacklogInv s' := by
  constructor
  · exact RingsSound.congr h.sound fun t => by rw [hp.drivers]
  · intro ht i
    rw [hp.valid]
    exact h.unbound (hp.table ▸ ht) i
  · intro t i hd hrun b hb
    have hd' : s.Drains i t :=
      ⟨hd.lt, hp.table ▸ hd.table, hp.valid i ▸ hd.valid, hp.drivers ▸ hd.count⟩
    rw [hp.drivers] at hb
    rw [hp.session]
    exact h.fresh t i hd' (hp.midiStarted ▸ hrun) b hb
  · rw [hp.trace]
    exact h.trace

/-- A class driver is bound while no interface is valid. -/
theorem bind (h : BacklogInv s) (ht : s.g.table = none) (t : ℕ) (deviceRef : ℤ) :
    BacklogInv (s.bound t deviceRef) := by
  refine ⟨h.sound, fun hnone => absurd hnone (by simp [Oms.bound, Oms.upd]), ?_, h.trace⟩
  intro t' i hd
  have hv : (s.g.ifaces i).valid = true := hd.valid
  rw [h.unbound ht i] at hv
  exact absurd hv (by simp)

theorem clear (h : BacklogInv s) {g : OmsGlobals} (hi : g.ifaces = fun _ => .zero) :
    BacklogInv { s with g := g } := by
  refine ⟨h.sound, fun _ i => by simp [hi, OmsIface.zero], ?_, h.trace⟩
  intro t i hd
  have hv : (g.ifaces i).valid = true := hd.valid
  rw [hi] at hv
  exact absurd hv (by simp [OmsIface.zero])

/-- **An interface is marked valid** whose ring is fresh. -/
theorem validate (h : BacklogInv s) {t i : ℕ} (ht : s.g.table = some t)
    (hi : i < (s.drivers t).count) (hf : (s.g.ifaces i).valid = false → s.FreshRing t i) :
    BacklogInv (omsValidate s i) := by
  refine ⟨h.sound, fun hnone => absurd (ht.symm.trans hnone) (by simp), ?_, h.trace⟩
  intro t' j hd
  obtain rfl : t = t' := Option.some.inj (ht.symm.trans hd.table)
  by_cases hj : j = i
  · subst hj
    by_cases hv : (s.g.ifaces j).valid = true
    · exact h.fresh t j ⟨hd.lt, ht, hv, hi⟩
    · exact hf (Bool.eq_false_iff.2 hv)
  · have hv : (s.g.ifaces j).valid = true := by
      simpa [omsValidate, Oms.upd, Function.update_of_ne hj] using hd.valid
    exact h.fresh t j ⟨hd.lt, ht, hv, hd.count⟩

/-- **Starting** begins a session with empty rings. -/
theorem start (h : BacklogInv s) : BacklogInv (omsStart s) := by
  obtain ⟨hinv, hempty⟩ := h.discard
  refine ⟨hinv.sound, hinv.unbound, ?_, hinv.trace⟩
  intro t i hd _ b hb
  have hd' : (omsRxDrainAll false s).Drains i t := ⟨hd.lt, hd.table, hd.valid, hd.count⟩
  have hnil : (((omsStart s).drivers t).rings i).queue ringSize = [] := hempty t i hd'
  rw [hnil] at hb
  exact absurd hb List.not_mem_nil

theorem stop (h : BacklogInv s) : BacklogInv (omsStopMidi s) := by
  refine ⟨h.sound, h.unbound, ?_, h.trace⟩
  intro t i _ hrun
  exact absurd hrun (by simp [omsStopMidi, Oms.upd])

theorem mem_stamp {data : List UInt8} {b : RingByte} (hb : b ∈ s.stamp data)
    (hrun : s.g.midiStarted = true) : b.session = some s.session := by
  obtain ⟨x, -, rfl⟩ := List.mem_map.1 hb
  exact if_pos hrun

/-- **A transfer** is stored with the session it arrives in. -/
theorem store (h : BacklogInv s) (t i : ℕ) (data : List UInt8) :
    BacklogInv (s.setRing t i
      (um9RingEnqueue ringSize ((s.drivers t).rings i) (s.stamp data)).1) := by
  have hmem := (um9RingEnqueue_sound ringSize_ok (h.sound t i) (s.stamp data)).2
  constructor
  · exact RingsSound.store h.sound t i _
  · exact h.unbound
  · intro t' j hd hrun b hb
    have hd' : s.Drains j t' :=
      ⟨hd.lt, hd.table, hd.valid, Oms.count_setRing s t i _ t' ▸ hd.count⟩
    rw [Oms.rings_setRing] at hb
    split_ifs at hb with heq
    · obtain ⟨rfl, rfl⟩ := heq
      rcases hmem b hb with hold | hnew
      · exact h.fresh t' j hd' hrun b hold
      · exact mem_stamp hnew hrun
    · exact h.fresh t' j hd' hrun b hb
  · exact h.trace

/-- **A new interface** has an empty ring. -/
theorem appear (h : BacklogInv s) (t : ℕ) (buf : ℕ → RingByte) : BacklogInv (omsAppear s t buf) := by
  have hcount : ((omsAppear s t buf).drivers t).count = (s.drivers t).count + 1 := by
    simp only [omsAppear, Oms.setDriver, Function.update_self]
  constructor
  · exact RingsSound.appear h.sound t buf
  · exact h.unbound
  · intro t' j hd hrun b hb
    by_cases ht : t' = t
    · subst ht
      rw [omsAppear_rings] at hb
      split_ifs at hb with hj
      · have hnil : Ring.queue ringSize ⟨some buf, 0, 0⟩ = [] :=
          (um9RingReset_spec ringSize ⟨some buf, 0, 0⟩).2
        rw [hnil] at hb
        exact absurd hb List.not_mem_nil
      · have hlt := hd.count
        rw [hcount] at hlt
        exact h.fresh t' j ⟨hd.lt, hd.table, hd.valid, by omega⟩ hrun b hb
    · have hother := omsAppear_other s ht buf
      have hd' : s.Drains j t' := ⟨hd.lt, hd.table, hd.valid, hother ▸ hd.count⟩
      rw [hother] at hb
      exact h.fresh t' j hd' hrun b hb
  · exact h.trace

/-- **Every move keeps the invariant** where the condition lets it happen. -/
theorem move (h : BacklogInv s) (hm : OmsMove True s s') : BacklogInv s' := by
  cases hm with
  | quiet hq => exact h.quiet hq
  | ports hp => exact h.ports hp
  | drain i hd => exact h.drain i hd
  | bind t deviceRef ht => exact h.bind ht t deviceRef
  | validate ht hi hf => exact h.validate ht hi (hf trivial)
  | clear hi _ => exact h.clear hi
  | start => exact h.start
  | stop => exact h.stop
  | store t i data => exact h.store t i data
  | appear t buf => exact h.appear t buf

end BacklogInv

end

/-! ## Runs -/

/-- **No stale backlog reaches OMS** in a run in which every `omdvAddDevices` that
    is sent while MIDI is running finds no backlog: whatever the order of the
    messages, notifications, completions and replugs, each byte of an Event
    Packet whose message OMS got was stored in the session of the delivery, so
    after the latest `omdvStartMIDI2` and with no `omdvStopMIDI` in between. -/
theorem backlog_discarded {drivers : ℕ → ClassDriver} (hdrivers : ∀ t, (drivers t).Fresh) {s : Oms}
    (h : Reach omsStep (fun s e => e.AddFresh s) (.boot drivers) s) {source : List RingByte}
    {session : ℕ} {pkt : OmsPacket} {ioRefNum : Int16}
    (he : .received source session pkt ioRefNum ∈ s.trace) :
    ∀ b ∈ source, b.session = some session := by
  have hboot : BacklogInv (.boot drivers) := by
    refine ⟨RingsSound.boot hdrivers, fun _ _ => rfl, ?_, by simp [Oms.boot]⟩
    intro t i hd
    exact absurd hd.table (by simp [Oms.boot, OmsGlobals.zero])
  have hinv : BacklogInv s :=
    oms_inv (F := True) (fun _ _ hs hm => hs.move hm) hboot (h.mono fun _ _ hok _ => hok)
  exact hinv.trace _ he

theorem ClassDriver.single_fresh : ClassDriver.single.Fresh := ⟨by decide, fun _ => ⟨rfl, rfl, rfl⟩⟩

/-- A Note On that arrives while MIDI is off, and one after the start. -/
def configuredEvents : List OmsEvent :=
  [.message (.init ⟨none, [], none, [(1, ⟨omsNoErr, some 0⟩)], 1⟩),
    .message (.addDevices true []),
    .message (.setPortReceiveRefNum (some ⟨1, 0⟩) 5),
    .completion 0 0 [0x09, 0x90, 0x3C, 0x40],
    .message (.startMIDI2 []),
    .completion 0 0 [0x09, 0x90, 0x3E, 0x40]]

/-- The same events, the interface being added and configured after the start. -/
def addedLateEvents : List OmsEvent :=
  [.message (.init ⟨none, [], none, [(1, ⟨omsNoErr, some 0⟩)], 1⟩),
    .completion 0 0 [0x09, 0x90, 0x3C, 0x40],
    .message (.startMIDI2 []),
    .message (.addDevices true []),
    .message (.setPortReceiveRefNum (some ⟨1, 0⟩) 5),
    .completion 0 0 [0x09, 0x90, 0x3E, 0x40]]

/-- The bytes of a Note On, as they arrived. -/
def noteOnBytes (note : UInt8) (session : Option ℕ) : List RingByte :=
  [⟨0x09, session⟩, ⟨0x90, session⟩, ⟨note, session⟩, ⟨0x40, session⟩]

theorem backlog_discarded_note :
    (afterEvents configuredEvents).trace =
        [.received (noteOnBytes 0x3E (some 1)) 1 ⟨0, 3, 5, 0, [0x90, 0x3E, 0x40, 0]⟩ 5] ∧
      ∀ b ∈ noteOnBytes 0x3E (some 1), b.session = some 1 := by
  have htrace : (afterEvents configuredEvents).trace =
      [.received (noteOnBytes 0x3E (some 1)) 1 ⟨0, 3, 5, 0, [0x90, 0x3E, 0x40, 0]⟩ 5] := by
    decide +kernel
  have hrun : RunOk omsStep (fun s e => e.AddFresh s) (.boot fun _ => .single) configuredEvents := by
    decide +kernel
  have hreach := Reach.of_run hrun (show _ = some (afterEvents configuredEvents) from rfl)
  exact ⟨htrace,
    backlog_discarded (fun _ => ClassDriver.single_fresh) hreach (htrace ▸ List.mem_singleton_self _)⟩

/-- **A stale message reaches OMS** when the interface is added after the start. -/
theorem backlog_delivered :
    ClassDriver.single.Fresh ∧
      Reach omsStep (fun _ _ => True) (.boot fun _ => .single) (afterEvents addedLateEvents) ∧
      .received (noteOnBytes 0x3C none) 1 ⟨0, 3, 5, 0, [0x90, 0x3C, 0x40, 0]⟩ 5 ∈
        (afterEvents addedLateEvents).trace ∧
      ¬∀ b ∈ noteOnBytes 0x3C none, b.session = some 1 := by
  have hrun : RunOk omsStep (fun _ _ => True) (.boot fun _ => .single) addedLateEvents := runOk_true
  have hreach := Reach.of_run hrun (show _ = some (afterEvents addedLateEvents) from rfl)
  exact ⟨ClassDriver.single_fresh, hreach, by decide +kernel, by decide⟩

end Usbmidi9
