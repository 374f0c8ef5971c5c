/-
  USBMIDI9 — what a drain does.

  `Drained` describes an uninterrupted drain of one interface by the Event
  Packets it consumed: every port runs as one machine on the packets of its
  cable (`rxPort`), the trace grows by what the machines emit, and nothing else
  moves.  It holds of one packet and composes, so it holds of a chunk and of the
  whole drain (`omsRxDrain_spec`).
-/
import Usbmidi9.Oms.Driver

namespace Usbmidi9

/-! ## Event Packets in a ring -/

/-- An Event Packet as it lies in a ring. -/
structure RxFrame where
  b0 : RingByte
  b1 : RingByte
  b2 : RingByte
  b3 : RingByte

namespace RxFrame

def source (f : RxFrame) : List RingByte := [f.b0, f.b1, f.b2, f.b3]

def packet (f : RxFrame) : EventPacket := ⟨f.b0.val, f.b1.val, f.b2.val, f.b3.val⟩

end RxFrame

/-- The Event Packets of a chunk. -/
def frames : List RingByte → List RxFrame
  | b0 :: b1 :: b2 :: b3 :: rest => ⟨b0, b1, b2, b3⟩ :: frames rest
  | _ => []

theorem frames_append {l : List RingByte} (h : 4 ∣ l.length) (l' : List RingByte) :
    frames (l ++ l') = frames l ++ frames l' := by
  fun_induction frames l with
  | case1 b0 b1 b2 b3 rest ih =>
    have hrest : 4 ∣ rest.length := by
      simp only [List.length_cons] at h; omega
    simp only [List.cons_append, frames, ih hrest]
  | case2 l hl =>
    match l, h with
    | [], _ => rfl
    | [_], h | [_, _], h | [_, _, _], h => simp at h
    | b0 :: b1 :: b2 :: b3 :: rest, _ => exact absurd rfl (hl b0 b1 b2 b3 rest)

theorem frames_flatten {chunks : List (List RingByte)}
    (h : ∀ c ∈ chunks.dropLast, 4 ∣ c.length) :
    frames chunks.flatten = chunks.flatMap frames := by
  induction chunks with
  | nil => rfl
  | cons c chunks ih =>
    cases chunks with
    | nil => simp
    | cons c' chunks =>
      rw [List.dropLast_cons_cons] at h
      obtain ⟨hc, hcs⟩ := List.forall_mem_cons.1 h
      rw [List.flatten_cons, frames_append hc, ih hcs]
      rfl

theorem mem_frames {l : List RingByte} {f : RxFrame} (h : f ∈ frames l) : ∀ b ∈ f.source, b ∈ l := by
  fun_induction frames l with
  | case1 b0 b1 b2 b3 rest ih =>
    intro b hb
    rcases List.mem_cons.1 h with rfl | h
    · simp only [RxFrame.source, List.mem_cons, List.not_mem_nil, or_false] at hb
      rcases hb with rfl | rfl | rfl | rfl <;> simp
    · have hmem := ih h b hb
      simp [hmem]
  | case2 => exact absurd h List.not_mem_nil

/-! ## Ports as machines -/

/-- What a port hands to OMS of the messages it took. -/
def OmsPort.deliveries (deliver : Bool) (p : OmsPort) (ms : List RxMsg) :
    List (OmsPacket × Int16) :=
  if deliver = false ∨ p.ioRefNum < 0 then []
  else ms.map fun m => (omsRxBuildPacket p.ioRefNum m, p.ioRefNum)

/-- The port of a cable on the packets of its cable. -/
def rxPort (deliver : Bool) (cable : ℕ) : Mealy OmsPort RxFrame (OmsPacket × Int16) where
  step p f :=
    let r := omsRxPortPacket p cable f.packet.bytes
    (r.1, r.1.deliveries deliver r.2)

/-- The ports of an interface. -/
def rxIface (deliver : Bool) : Mealy (ℕ → OmsPort) RxFrame (ℕ × OmsPacket × Int16) :=
  .demux (fun f => f.packet.cable) (rxPort deliver)

/-- The cable, the packet and the refnum of what is handed to OMS. -/
def OmsEntry.delivery : OmsEntry → Option (ℕ × OmsPacket × Int16)
  | .received source _ pkt ioRefNum =>
    some (((source.headD default).val.toNat >>> 4) &&& 0x0F, pkt, ioRefNum)
  | _ => none

/-- A delivery in a session, of a message that one of the packets carried. -/
def OmsEntry.From (session : ℕ) (fs : List RxFrame) : OmsEntry → Prop
  | .received source session' _ _ => session' = session ∧ ∃ f ∈ fs, source = f.source
  | _ => False

/-- An uninterrupted drain of interface `i` that consumed the packets `fs`. -/
structure Drained (i : ℕ) (deliver : Bool) (fs : List RxFrame) (s s' : Oms) : Prop where
  globals : ∃ ifaces n m k, s'.g = { s.g with
    ifaces := ifaces, rxPackets := n, rxMessages := m, rxDropped := k }
  ports : (s'.g.ifaces i).ports = (rxIface deliver).final (s.g.ifaces i).ports fs
  valid : (s'.g.ifaces i).valid = (s.g.ifaces i).valid
  others : ∀ j ≠ i, s'.g.ifaces j = s.g.ifaces j
  session : s'.session = s.session
  drivers : s'.drivers = s.drivers
  trace : ∃ new, s'.trace = s.trace ++ new ∧ (deliver = false → new = []) ∧
    (∀ e ∈ new, e.From s.session fs) ∧
    (s.g.rxRoutine ≠ 0 →
      new.filterMap OmsEntry.delivery = (rxIface deliver).out (s.g.ifaces i).ports fs)

namespace Drained
variable {i : ℕ} {deliver : Bool} {fs fs' : List RxFrame} {s s' s'' : Oms}

theorem table (h : Drained i deliver fs s s') : s'.g.table = s.g.table := by
  obtain ⟨_, _, _, _, hg⟩ := h.globals; rw [hg]

theorem midiStarted (h : Drained i deliver fs s s') : s'.g.midiStarted = s.g.midiStarted := by
  obtain ⟨_, _, _, _, hg⟩ := h.globals; rw [hg]

theorem rxRoutine (h : Drained i deliver fs s s') : s'.g.rxRoutine = s.g.rxRoutine := by
  obtain ⟨_, _, _, _, hg⟩ := h.globals; rw [hg]

/-- Counting consumes nothing. -/
theorem count (s : Oms) (n m k : UInt32) : Drained i deliver [] s
    (s.upd fun g => { g with rxPackets := n, rxMessages := m, rxDropped := k }) :=
  ⟨⟨_, _, _, _, rfl⟩, rfl, rfl, fun _ _ => rfl, rfl, rfl, [], by simp [Oms.upd], fun _ => rfl,
    nofun, fun _ => rfl⟩

theorem trans (h : Drained i deliver fs s s') (h' : Drained i deliver fs' s' s'') :
    Drained i deliver (fs ++ fs') s s'' := by
  obtain ⟨new, hn, hd, hf, ho⟩ := h.trace
  obtain ⟨new', hn', hd', hf', ho'⟩ := h'.trace
  refine ⟨?_, ?_, h'.valid.trans h.valid, fun j hj => (h'.others j hj).trans (h.others j hj),
    h'.session.trans h.session, h'.drivers.trans h.drivers, new ++ new', ?_, ?_,
    ?_, ?_⟩
  · obtain ⟨_, _, _, _, hg⟩ := h.globals
    obtain ⟨_, _, _, _, hg'⟩ := h'.globals
    exact ⟨_, _, _, _, by rw [hg', hg]⟩
  · rw [h'.ports, h.ports, Mealy.final_append]
  · rw [hn', hn, List.append_assoc]
  · intro hdel
    rw [hd hdel, hd' hdel]; rfl
  · intro e he
    have hmono : ∀ {e : OmsEntry} {l l' : List RxFrame}, (∀ f ∈ l, f ∈ l') →
        e.From s.session l → e.From s.session l' := fun {e l l'} hl he => by
      cases e with
      | received => exact ⟨he.1, he.2.imp fun f hf => ⟨hl f hf.1, hf.2⟩⟩
      | _ => exact he
    rcases List.mem_append.1 he with he | he
    · exact hmono (fun f hf => List.mem_append_left _ hf) (hf e he)
    · exact hmono (fun f hf => List.mem_append_right _ hf) (h.session ▸ hf' e he)
  · intro hr
    rw [List.filterMap_append, ho hr, ho' (h.rxRoutine ▸ hr), h.ports, Mealy.out_append]

end Drained

/-- The state after a port's messages were taken and before they are delivered. -/
def Oms.taken (s : Oms) (i c : ℕ) (r : OmsPort × List RxMsg) : Oms :=
  (s.setPort i c r.1).upd fun g =>
    { g with rxMessages := g.rxMessages + UInt32.ofNat r.2.length }

theorem Oms.ifaces_taken (s : Oms) (i c : ℕ) (r : OmsPort × List RxMsg) (j : ℕ) :
    (s.taken i c r).g.ifaces j = if j = i then
      { s.g.ifaces i with ports := Function.update (s.g.ifaces i).ports c r.1 }
    else s.g.ifaces j := Function.update_apply ..

/-- **One Event Packet.** -/
theorem omsRxPacket_drained (i : ℕ) (deliver : Bool) (s : Oms) (f : RxFrame) :
    Drained i deliver [f] s (omsRxPacket i deliver s f.b0 f.b1 f.b2 f.b3) := by
  have hc : ¬omsCables ≤ f.packet.cable := Nat.not_le.2 f.packet.cable_lt
  generalize hr : omsRxPortPacket (s.port i f.packet.cable) f.packet.cable f.packet.bytes = r
  have hstep : (rxIface deliver).step (s.g.ifaces i).ports f =
      (Function.update (s.g.ifaces i).ports f.packet.cable r.1,
        (r.1.deliveries deliver r.2).map (Prod.mk f.packet.cable)) := by
    subst hr; rfl
  have heq : omsRxPacket i deliver s f.b0 f.b1 f.b2 f.b3 =
      if deliver = false ∨ r.1.ioRefNum < 0 then s.taken i f.packet.cable r
      else omsRxDeliver (s.taken i f.packet.cable r) f.source r.1.ioRefNum r.2 := by
    subst hr
    exact if_neg hc
  have hports : ((s.taken i f.packet.cable r).g.ifaces i).ports =
      (rxIface deliver).final (s.g.ifaces i).ports [f] := by
    rw [Oms.ifaces_taken, if_pos rfl, Mealy.final_cons, hstep]; rfl
  have hvalid : ((s.taken i f.packet.cable r).g.ifaces i).valid = (s.g.ifaces i).valid := by
    rw [Oms.ifaces_taken, if_pos rfl]
  have hothers : ∀ j ≠ i, (s.taken i f.packet.cable r).g.ifaces j = s.g.ifaces j := fun j hj => by
    rw [Oms.ifaces_taken, if_neg hj]
  have hout : (rxIface deliver).out (s.g.ifaces i).ports [f] =
      (r.1.deliveries deliver r.2).map (Prod.mk f.packet.cable) := by
    rw [Mealy.out_cons, hstep, Mealy.out_nil, List.append_nil]
  -- the part that both branches share: nothing is delivered
  have hsilent : ∀ (_ : s.g.rxRoutine ≠ 0 → r.1.deliveries deliver r.2 = []),
      Drained i deliver [f] s (s.taken i f.packet.cable r) := fun hnone =>
    ⟨⟨_, _, _, _, rfl⟩, hports, hvalid, hothers, rfl, rfl, [], (List.append_nil _).symm,
      fun _ => rfl, nofun, fun h0 => by rw [hout, hnone h0]; rfl⟩
  rw [heq]
  split_ifs with hdel
  · exact hsilent fun _ => if_pos hdel
  unfold omsRxDeliver
  split_ifs with h0
  · exact hsilent fun hne => absurd h0 hne
  refine ⟨⟨_, _, _, _, rfl⟩, hports, hvalid, hothers, rfl, rfl, _, rfl, ?_,
    ?_, ?_⟩
  · intro hd
    exact absurd (.inl hd) hdel
  · intro e he
    obtain ⟨m, -, rfl⟩ := List.mem_map.1 he
    exact ⟨rfl, f, List.mem_singleton_self f, rfl⟩
  · intro _
    rw [hout, OmsPort.deliveries, if_neg hdel, List.map_map, List.filterMap_map]
    have hsome : (OmsEntry.delivery ∘ fun m => OmsEntry.received f.source s.session
        (omsRxBuildPacket r.1.ioRefNum m) r.1.ioRefNum) = fun m =>
          some (f.packet.cable, omsRxBuildPacket r.1.ioRefNum m, r.1.ioRefNum) := rfl
    exact (congrArg (List.filterMap · r.2) hsome).trans (congrFun List.filterMap_eq_map' r.2)

theorem omsRxPackets_drained (i : ℕ) (deliver : Bool) (s : Oms) (bytes : List RingByte) :
    Drained i deliver (frames bytes) s (omsRxPackets i deliver s bytes) := by
  fun_induction omsRxPackets i deliver s bytes with
  | case1 s b0 b1 b2 b3 rest ih =>
    exact (omsRxPacket_drained i deliver s ⟨b0, b1, b2, b3⟩).trans ih
  | case2 s rest hr =>
    have hnil : frames rest = [] := by
      unfold frames
      split
      · exact absurd rfl (hr _ _ _ _ _)
      · rfl
    rw [hnil]
    exact Drained.count s s.g.rxPackets s.g.rxMessages _

theorem omsRxChunk_drained (i : ℕ) (deliver : Bool) (s : Oms) (chunk : List RingByte) :
    Drained i deliver (frames chunk) s (omsRxChunk i deliver s chunk) :=
  (Drained.count s _ s.g.rxMessages s.g.rxDropped).trans (omsRxPackets_drained i deliver _ chunk)

theorem omsRxChunks_drained (i : ℕ) (deliver : Bool) (s : Oms) (chunks : List (List RingByte)) :
    Drained i deliver (chunks.flatMap frames) s (chunks.foldl (omsRxChunk i deliver) s) := by
  induction chunks generalizing s with
  | nil => exact Drained.count s s.g.rxPackets s.g.rxMessages s.g.rxDropped
  | cons c chunks ih => exact (omsRxChunk_drained i deliver s c).trans (ih _)

/-! ## The drain -/

/-- The conditions under which a drain of interface `i` reads the ring of the
    bound driver `t`. -/
structure Oms.Drains (s : Oms) (i t : ℕ) : Prop where
  lt : i < omsMaxInterfaces
  table : s.g.table = some t
  valid : (s.g.ifaces i).valid = true
  count : i < (s.drivers t).count

theorem omsRxDrain_skip {i : ℕ} {s : Oms} (h : ∀ t, ¬s.Drains i t) (deliver : Bool) :
    omsRxDrain i deliver s = s := by
  by_cases hi : omsMaxInterfaces ≤ i
  · rw [omsRxDrain, if_pos hi]
  rw [omsRxDrain, if_neg hi]
  rcases ht : s.g.table with _ | t
  · rfl
  simp only
  by_cases hv : (s.g.ifaces i).valid = false
  · rw [if_pos hv]
  by_cases hc : (s.drivers t).count ≤ i
  · rw [if_neg hv, if_pos hc]
  · exact absurd ⟨Nat.lt_of_not_le hi, ht, Bool.eq_true_of_not_eq_false hv, Nat.lt_of_not_le hc⟩ (h t)

theorem omsRxDrain_eq {i t : ℕ} {s : Oms} (h : s.Drains i t) (deliver : Bool) :
    omsRxDrain i deliver s =
      (drainRing ringSize omsDequeueChunk (omsRxChunk i deliver)
        (um9RingUsed ringSize ((s.drivers t).rings i) + 1) ((s.drivers t).rings i) s).2.setRing t i
      (drainRing ringSize omsDequeueChunk (omsRxChunk i deliver)
        (um9RingUsed ringSize ((s.drivers t).rings i) + 1) ((s.drivers t).rings i) s).1 := by
  have hv : (s.g.ifaces i).valid ≠ false := by rw [h.valid]; decide
  rw [omsRxDrain, if_neg (Nat.not_le.2 h.lt), h.table]
  simp only
  rw [if_neg hv, if_neg (Nat.not_le.2 h.count)]

/-- Whatever is in the ring, a drain is one of some packets. -/
theorem omsRxDrain_drained {i t : ℕ} {s : Oms} (h : s.Drains i t) (deliver : Bool) :
    ∃ fs s' r, omsRxDrain i deliver s = s'.setRing t i r ∧ Drained i deliver fs s s' := by
  obtain ⟨chunks, hc⟩ := drainRing_foldl ringSize omsDequeueChunk (omsRxChunk i deliver)
    (um9RingUsed ringSize ((s.drivers t).rings i) + 1) ((s.drivers t).rings i) s
  refine ⟨chunks.flatMap frames, _, _, omsRxDrain_eq h deliver, ?_⟩
  rw [hc]
  exact omsRxChunks_drained i deliver s chunks

/-- **A drain** consumes the Event Packets of its ring and leaves it empty. -/
theorem omsRxDrain_spec {i t : ℕ} {s : Oms} (h : s.Drains i t)
    (hr : ((s.drivers t).rings i).Sound ringSize) (deliver : Bool) :
    ∃ (fs : List RxFrame) (s' : Oms) (r : Ring RingByte),
      omsRxDrain i deliver s = s'.setRing t i r ∧ Drained i deliver fs s s' ∧
      r.Sound ringSize ∧ r.queue ringSize = [] ∧
      (∀ f ∈ fs, ∀ b ∈ f.source, b ∈ ((s.drivers t).rings i).queue ringSize) ∧
      fs = frames (((s.drivers t).rings i).queue ringSize) := by
  obtain ⟨r, chunks, hdrain, hsound, hempty, hflat, hunits⟩ :=
    drainRing_sound ringSize_ok (show 0 < omsDequeueChunk by decide) (omsRxChunk i deliver) hr s
  refine ⟨chunks.flatMap frames, chunks.foldl (omsRxChunk i deliver) s, r, ?_,
    omsRxChunks_drained i deliver s chunks, hsound, hempty, ?_, ?_⟩
  · rw [omsRxDrain_eq h, hdrain]
  · intro f hf b hb
    obtain ⟨c, hc, hfc⟩ := List.mem_flatMap.1 hf
    rw [← hflat]
    exact List.mem_flatten.2 ⟨c, hc, mem_frames hfc b hb⟩
  · rw [← hflat]
    refine (frames_flatten ?_).symm
    intro c hc
    rw [hunits c hc]
    exact ⟨16, rfl⟩

/-- What a drain leaves alone. -/
theorem omsRxDrain_frame (i : ℕ) (deliver : Bool) (s : Oms) :
    (omsRxDrain i deliver s).g.table = s.g.table ∧
      (omsRxDrain i deliver s).g.midiStarted = s.g.midiStarted ∧
      (omsRxDrain i deliver s).session = s.session ∧
      (∀ j, ((omsRxDrain i deliver s).g.ifaces j).valid = (s.g.ifaces j).valid) ∧
      (∀ t, ((omsRxDrain i deliver s).drivers t).count = (s.drivers t).count) ∧
      ∀ t j, ¬s.Drains j t ∨ j ≠ i →
        ((omsRxDrain i deliver s).drivers t).rings j = (s.drivers t).rings j := by
  by_cases h : ∃ t, s.Drains i t
  · obtain ⟨t, ht⟩ := h
    obtain ⟨fs, s', r, heq, hd⟩ := omsRxDrain_drained ht deliver
    have hvalid : ∀ j, (s'.g.ifaces j).valid = (s.g.ifaces j).valid := fun j => by
      by_cases hj : j = i
      · rw [hj]; exact hd.valid
      · rw [hd.others j hj]
    rw [heq]
    refine ⟨hd.table, hd.midiStarted, hd.session, hvalid, ?_, ?_⟩
    · intro t'
      by_cases htt : t' = t
      · subst htt
        simp only [Oms.setRing, Oms.setDriver, Function.update_self, hd.drivers]
      · simp only [Oms.setRing, Oms.setDriver, Function.update_of_ne htt, hd.drivers]
    · intro t' j hj
      by_cases htt : t' = t
      · subst htt
        have hji : j ≠ i := hj.elim (fun hn hji => hn (hji ▸ ht)) id
        simp only [Oms.setRing, Oms.setDriver, Function.update_self, Function.update_of_ne hji,
          hd.drivers]
      · simp only [Oms.setRing, Oms.setDriver, Function.update_of_ne htt, hd.drivers]
  · rw [omsRxDrain_skip (not_exists.1 h)]
    exact ⟨rfl, rfl, rfl, fun _ => rfl, fun _ => rfl, fun _ _ _ => rfl⟩

end Usbmidi9
