/-
  USBMIDI9 — from one send hook to another receive path.

  The packets that one shim hands to its transport for an interface reach the
  ring of an interface of another one, in their order and cut into transfers
  anywhere between two packets.  On a cable on which messages were sent, each in
  one call of the hook or, a SysEx, in chunks, OMS gets these messages in order,
  a SysEx in pieces that are marked as such.

  `sender` is the transmit path of one cable: the calls of the hook for the
  other cables do not reach it (`sender_run`).  `wire_roundTrip` puts it in front
  of the listener.
-/
import Usbmidi9.Core.RoundTrip
import Usbmidi9.Oms.Listener
import Usbmidi9.Oms.Reads

namespace Usbmidi9

/-! ## The sender -/

/-- The transmit path of a cable: it remembers the carry. -/
def sender (cable : ℕ) : Mealy (List UInt8) OmsMidiPacket EventPacket where
  step carry pkt :=
    if pkt.Conventional then (carry, (txRows cable pkt.bytes).getD [])
    else rechunk cable pkt.mode carry pkt.bytes

/-- The packets in which a message is passed to the hook. -/
inductive Says (cable : ℕ) : List UInt8 → List OmsMidiPacket → Prop
  | message {pkt : OmsMidiPacket} : pkt.Conventional → (txRows cable pkt.bytes).isSome →
    Says cable pkt.bytes [pkt]
  | run {run pkts} : IsRun run → Chunked run pkts → Says cable run pkts

/-- The packet of a call for a port. -/
def PlacedCall.for? (ifaceNo cable : ℕ) (call : PlacedCall) : Option OmsMidiPacket :=
  if sendPort? call.refCon = some (ifaceNo, cable) then call.pkt else none

/-- The packets in a trace that go to an interface, counted from 1. -/
def OmsEntry.wired? (ifaceNo : ℕ) : OmsEntry → Option EventPacket
  | .transport code pkt => if code >>> 8 = ifaceNo then some pkt else none
  | _ => none

/-- The packets that come in with an event. -/
def OmsEvent.arrived (t i : ℕ) : OmsEvent → List EventPacket
  | .completion t' i' data => if t' = t ∧ i' = i then transferPackets (data.take ringSize) else []
  | _ => []

/-- Events that leave the receive stream of cable `c` of interface `i` alone. -/
def OmsEvent.Streaming (i c : ℕ) : OmsEvent → Prop
  | .message (.startMIDI2 _) | .message .stopMIDI => False
  | .message (.setPortReceiveRefNum portID _) => portID.bind OmsPortID.port? ≠ some (i + 1, c)
  | _ => True

instance (i c : ℕ) (e : OmsEvent) : Decidable (e.Streaming i c) := by
  unfold OmsEvent.Streaming
  split <;> infer_instance

/-! ## One message -/

section
variable {cable : ℕ}

theorem Chunked.not_conventional {run : List UInt8} (hrun : IsRun run) {pkts : List OmsMidiPacket}
    (h : Chunked run pkts) : ∀ pkt ∈ pkts, ¬pkt.Conventional := by
  intro pkt hp hconv
  obtain ⟨hsize, hbytes⟩ := h.sized pkt hp
  have hhead := OmsMidiPacket.bytes_head hsize.1
  rw [hbytes hconv.1] at hhead
  exact hconv.2 ⟨hsize.1, hhead ▸ hrun.1⟩

/-- On chunks the sender is the machine that cuts them into packets. -/
theorem sender_rechunker {pkts : List OmsMidiPacket} (h : ∀ pkt ∈ pkts, ¬pkt.Conventional)
    (ifaceNo : ℕ) (carry : List UInt8) :
    let calls := pkts.map fun pkt => SendCall.mk (some pkt) 0
    ((sender cable).out carry pkts).map (.transport ((ifaceNo <<< 8) ||| cable)) =
        (rechunker ifaceNo cable).out carry calls ∧
      (sender cable).final carry pkts = (rechunker ifaceNo cable).final carry calls := by
  induction pkts generalizing carry with
  | nil => exact ⟨rfl, rfl⟩
  | cons pkt pkts ih =>
    obtain ⟨hpkt, hpkts⟩ := List.forall_mem_cons.1 h
    obtain ⟨ho, hf⟩ := ih hpkts (rechunk cable pkt.mode carry pkt.bytes).1
    have hstep : (sender cable).step carry pkt = rechunk cable pkt.mode carry pkt.bytes :=
      if_neg hpkt
    refine ⟨?_, ?_⟩
    · rw [Mealy.out_cons, hstep, List.map_append, ho]
      rfl
    · rw [Mealy.final_cons, hstep, hf]
      rfl

theorem transport_injective (code : ℕ) : Function.Injective (OmsEntry.transport code) := by
  intro p q h
  injection h

/-- **One message**: the sender emits its packets and has no carry afterwards. -/
theorem Says.sender (hc : cable < omsCables) {m : List UInt8} {pkts : List OmsMidiPacket}
    (h : Says cable m pkts) :
    Encodes cable m ((sender cable).out [] pkts) ∧ (Usbmidi9.sender cable).final [] pkts = [] := by
  cases h with
  | @message pkt hconv hsome =>
    obtain ⟨ps, hps⟩ := Option.isSome_iff_exists.1 hsome
    have hstep : (Usbmidi9.sender cable).step [] pkt = ([], ps) := by
      simp only [Usbmidi9.sender, if_pos hconv, hps, Option.getD_some]
    refine ⟨?_, ?_⟩
    · rw [Mealy.out_cons, Mealy.out_nil, List.append_nil, hstep]
      exact encodes_iff.2 hps
    · rw [Mealy.final_cons, hstep]
      rfl
  | run hrun hchunks =>
    obtain ⟨ho, hf⟩ := sender_rechunker (hchunks.not_conventional hrun) 1 []
    obtain ⟨hout, hfinal⟩ := rechunker_chunks 1 cable hchunks
      (show (pkts.map fun pkt => SendCall.mk (some pkt) 0).map SendCall.pkt = pkts.map some by
        rw [List.map_map]; rfl) []
    refine ⟨?_, hf.trans hfinal⟩
    have hrows : (Usbmidi9.sender cable).out [] pkts = txRun cable m :=
      (List.map_injective_iff.2 (transport_injective _)) (ho.trans hout)
    have hcable : ¬cable > um9MaxCable := Nat.not_lt.2 (cable_le hc)
    rw [hrows]
    exact encodes_iff.2 (by rw [txRows, if_neg hcable, if_pos hrun])

/-- **A list of messages.** -/
theorem says_sender (hc : cable < omsCables) {msgs : List (List UInt8)}
    {pktss : List (List OmsMidiPacket)} (h : List.Forall₂ (Says cable) msgs pktss) :
    ∃ pss, List.Forall₂ (Encodes cable) msgs pss ∧
      (sender cable).out [] pktss.flatten = pss.flatten ∧
      (sender cable).final [] pktss.flatten = [] := by
  induction h with
  | nil => exact ⟨[], .nil, rfl, rfl⟩
  | @cons m pkts msgs pktss hm _ ih =>
    obtain ⟨hm, hfm⟩ := hm.sender hc
    obtain ⟨pss, hpss, ho, hf⟩ := ih
    refine ⟨(sender cable).out [] pkts :: pss, .cons hm hpss, ?_, ?_⟩
    · rw [List.flatten_cons, Mealy.out_append, hfm, ho, List.flatten_cons]
    · rw [List.flatten_cons, Mealy.final_append, hfm, hf]

end

/-! ## One call -/

theorem portCode_iface {ifaceNo c : ℕ} (hc : c < omsCables) :
    ((ifaceNo <<< 8) ||| c) >>> 8 = ifaceNo := by
  have hc' : c < 2 ^ 8 := hc.trans (by decide)
  rw [← Nat.shiftLeft_add_eq_or_of_lt hc', Nat.shiftLeft_eq, Nat.shiftRight_eq_div_pow]
  omega

theorem wired_transport {ifaceNo j c : ℕ} (hc : c < omsCables) (ps : List EventPacket) :
    (ps.map (.transport ((ifaceNo <<< 8) ||| c))).filterMap (OmsEntry.wired? j) =
      if ifaceNo = j then ps else [] := by
  rw [List.filterMap_map]
  by_cases hj : ifaceNo = j
  · have hall : OmsEntry.wired? j ∘ OmsEntry.transport ((ifaceNo <<< 8) ||| c) = some := by
      ext1 p
      simp only [Function.comp_apply, OmsEntry.wired?, portCode_iface hc, if_pos hj]
    rw [hall, List.filterMap_some, if_pos hj]
  · have hnone : OmsEntry.wired? j ∘ OmsEntry.transport ((ifaceNo <<< 8) ||| c) = fun _ => none := by
      ext1 p
      simp only [Function.comp_apply, OmsEntry.wired?, portCode_iface hc, if_neg hj]
    rw [hnone, if_neg hj]
    exact List.filterMap_eq_nil_iff.2 fun _ _ => rfl

section
variable {s : Oms} {call : PlacedCall} {j c : ℕ} {carry : List UInt8}

/-- What packets for a cable of an interface are on the wire of another one. -/
theorem wired_packets {ifaceNo cable : ℕ} (hc : cable < omsCables) {ps : List EventPacket}
    (hps : ∀ p ∈ ps, p.cable = cable) (j c : ℕ) :
    ((ps.map (.transport ((ifaceNo <<< 8) ||| cable))).filterMap (OmsEntry.wired? j)).filter
        (fun p => p.cable = c) = if ifaceNo = j ∧ cable = c then ps else [] := by
  rw [wired_transport hc]
  by_cases hj : ifaceNo = j
  swap
  · rw [if_neg hj, if_neg fun h => hj h.1]
    rfl
  rw [if_pos hj]
  by_cases hcc : cable = c
  · rw [if_pos ⟨hj, hcc⟩]
    exact List.filter_eq_self.2 fun p hp => decide_eq_true ((hps p hp).trans hcc)
  · rw [if_neg fun h => hcc h.2]
    refine List.filter_eq_nil_iff.2 fun p hp hpc => ?_
    exact hcc ((hps p hp).symm.trans (of_decide_eq_true hpc))

/-- A message that has an encoding and is no run has one to three bytes. -/
theorem txRows_length {cable : ℕ} {msg : List UInt8} (hrun : ¬IsRun msg) {ps : List EventPacket}
    (h : txRows cable msg = some ps) : 1 ≤ msg.length ∧ msg.length ≤ 3 := by
  unfold txRows at h
  split_ifs at h with hcable hlone
  · rw [hlone]
    decide
  · obtain ⟨q, hq, -⟩ := Option.map_eq_some_iff.1 h
    obtain ⟨-, h1, h3, -⟩ := um9PacketEncode_eq_some.1 hq
    exact ⟨h1, h3⟩

/-- The packets of a conventional message, if it has an encoding. -/
theorem omsTxMessageCode_rows (tx : TxStream) (hc : c < omsCables) {pkt : OmsMidiPacket}
    (hpkt : pkt.Conventional) {m : TxAccess → UInt8} (hdata : Logged.cells m .data 4 = pkt.data) :
    (emitted (omsTxMessageCode tx c pkt.len.toNat m).log).map (TxEmit.packet c) =
      (txRows c pkt.bytes).getD [] := by
  have hlength : pkt.bytes.length = min pkt.len.toNat 4 := by
    rw [OmsMidiPacket.bytes, List.length_take, pkt.size]
  have hrun : ¬IsRun pkt.bytes := by
    rintro ⟨hfirst, h2, -⟩
    rw [hlength] at h2
    have h1 : 1 ≤ pkt.len := UInt8.le_iff_toNat_le.2 (show 1 ≤ pkt.len.toNat by omega)
    exact hpkt.2 ⟨h1, (OmsMidiPacket.bytes_head h1).symm.trans hfirst⟩
  obtain ⟨-, hcases⟩ := omsTxMessageCode_apply tx c pkt.len.toNat m
  by_cases hlen : pkt.len.toNat < 1 ∨ 3 < pkt.len.toNat
  · -- too short or too long for a packet
    have hnone : txRows c pkt.bytes = none := by
      by_contra hsome
      obtain ⟨ps, hps⟩ := Option.ne_none_iff_exists'.1 hsome
      have hsize := txRows_length hrun hps
      omega
    rw [if_pos hlen] at hcases
    rw [hcases.2, hnone]
    rfl
  have hbytes : Logged.cells m .data pkt.len.toNat = pkt.bytes := by
    rw [OmsMidiPacket.bytes, ← hdata, Logged.take_cells (by omega)]
  rw [if_neg hlen, hbytes] at hcases
  rcases hrows : txRows c pkt.bytes with _ | ps
  · rw [if_pos (um9TxMessage_rejected hrows _)] at hcases
    rw [hcases.2]
    rfl
  obtain ⟨cin, rfl, hcin, hbytes⟩ := txRows_single (by omega) hrows
  obtain ⟨hone, hrow⟩ := um9TxMessage_row hrows tx
  have hpayload := EventPacket.payload_ofNibbles hc hcin hbytes
  have hcin' := EventPacket.cin_ofNibbles hc hcin pkt.bytes
  rw [EventPacket.payload, hcin', ← hbytes, hlength, Nat.min_eq_left (by omega)] at hpayload
  rw [if_neg (not_not.2 hone), hrow] at hcases
  rw [hcases.2, List.map_singleton, TxEmit.packet_take, omsTxPacket, hpayload, hcin']
  rfl

theorem TxEmit.packet_cable (hc : c < omsCables) (l : List TxEmit) :
    ∀ p ∈ l.map (TxEmit.packet c), p.cable = c := by
  intro p hp
  obtain ⟨e, -, rfl⟩ := List.mem_map.1 hp
  exact EventPacket.cable_ofNibbles hc _ _

/-- A call that a message may be made of. -/
def OmsMidiPacket.Sayable (pkt : OmsMidiPacket) : Prop :=
  pkt.Conventional ∨ pkt.Sized ∧ (pkt.cont = omsNoCont → IsRun pkt.bytes)

theorem Says.sayable {m : List UInt8} {pkts : List OmsMidiPacket} (h : Says c m pkts) :
    ∀ pkt ∈ pkts, pkt.Sayable := by
  cases h with
  | message hconv _ => exact List.forall_mem_singleton.2 (.inl hconv)
  | run hrun hchunks =>
    intro pkt hp
    obtain ⟨hsize, hbytes⟩ := hchunks.sized pkt hp
    exact .inr ⟨hsize, fun hcont => hbytes hcont ▸ hrun⟩

theorem says_sayable {msgs : List (List UInt8)} {pktss : List (List OmsMidiPacket)}
    (h : List.Forall₂ (Says c) msgs pktss) : ∀ pkt ∈ pktss.flatten, pkt.Sayable := by
  induction h with
  | nil => exact List.forall_mem_nil _
  | cons hm _ ih =>
    rw [List.flatten_cons]
    exact List.forall_mem_append.2 ⟨hm.sayable, ih⟩

/-- A conventional message may come in between the chunks of a run. -/
theorem OmsMidiPacket.Conventional.inserted {pkt : OmsMidiPacket} (h : pkt.Conventional)
    (hpkt : call.pkt = some pkt) (ifaceNo cable : ℕ) : Inserted ifaceNo cable call.toSendCall := by
  intro pkt' hp' _
  obtain rfl := Option.some.inj (hpkt.symm.trans hp')
  refine ⟨h.1, fun hf0 => ?_⟩
  by_cases h1 : 1 ≤ pkt.len
  · exact h.2 ⟨h1, (bytes_head h1).symm.trans hf0⟩
  · have hzero : pkt.len.toNat = 0 := Nat.lt_one_iff.1 (Nat.lt_of_not_le h1)
    rw [bytes, hzero, List.take_zero] at hf0
    exact absurd hf0 (by decide)

/-- **A call** is a step of the sender if it is for the port, and none otherwise. -/
theorem sendHook_sender (hc : c < omsCables) (hcarry : (s.port j c).Carries carry)
    (hsay : ∀ pkt ∈ call.for? (j + 1) c, pkt.Sayable) :
    ((sendHook.step s call).1.port j c).Carries
        ((sender c).final carry (call.for? (j + 1) c).toList) ∧
      ((sendHook.step s call).2.filterMap (OmsEntry.wired? (j + 1))).filter (fun p => p.cable = c) =
        (sender c).out carry (call.for? (j + 1) c).toList := by
  unfold PlacedCall.for? at hsay ⊢
  by_cases hignored : call.pkt = none ∨ sendPort? call.refCon = none
  · have hnone : (if sendPort? call.refCon = some (j + 1, c) then call.pkt else none) = none := by
      split_ifs with hport
      · exact hignored.resolve_right (by rw [hport]; exact Option.some_ne_none _)
      · rfl
    rw [sendHook_ignored hignored, hnone]
    exact ⟨hcarry, rfl⟩
  obtain ⟨hpkt, hport⟩ := not_or.1 hignored
  obtain ⟨pkt, hpkt⟩ := Option.ne_none_iff_exists'.1 hpkt
  obtain ⟨⟨ifaceNo, cable⟩, hport⟩ := Option.ne_none_iff_exists'.1 hport
  obtain ⟨-, hcable⟩ := sendPort?_bounds hport
  have hsent := omsTxSendCode_sent s hport pkt call.beyond
  simp only at hsent
  rw [← hpkt] at hsent
  rw [hsent.step, wired_packets hcable (TxEmit.packet_cable hcable _)]
  by_cases hown : (ifaceNo, cable) = (j + 1, c)
  swap
  · have hother : sendPort? call.refCon ≠ some (j + 1, c) := fun hsame =>
      hown (Option.some.inj (hport.symm.trans hsame))
    rw [if_neg hother, if_neg fun hsame => hown (Prod.ext hsame.1 hsame.2)]
    have hins : Inserted (j + 1) c call.toSendCall := fun _ _ hsame => absurd hsame hother
    exact ⟨(sendHook_inserted ⟨Nat.le_add_left 1 j, hc⟩ hins hcarry).1, rfl⟩
  obtain ⟨rfl, rfl⟩ := Prod.mk.inj hown
  rw [if_pos hport, hpkt] at hsay ⊢
  rw [if_pos ⟨rfl, rfl⟩]
  simp only [Option.toList_some, Mealy.final_cons, Mealy.final_nil, Mealy.out_cons, Mealy.out_nil,
    List.append_nil]
  by_cases hconv : pkt.Conventional
  · have hstep : (sender cable).step carry pkt = (carry, (txRows cable pkt.bytes).getD []) :=
      if_pos hconv
    have hbranch := omsTxPortCode_apply (s.port j cable) cable pkt call.beyond
    simp only [if_pos hconv] at hbranch
    rw [hstep]
    refine ⟨(sendHook_inserted ⟨Nat.le_add_left 1 j, hc⟩ (hconv.inserted hpkt _ _) hcarry).1, ?_⟩
    rw [Nat.add_sub_cancel, hbranch, emitted_append, emitted_first]
    exact omsTxMessageCode_rows _ hc hconv (cells_data ..)
  · have hstep : (sender cable).step carry pkt = rechunk cable pkt.mode carry pkt.bytes :=
      if_neg hconv
    obtain ⟨hsize, hrun⟩ := (hsay pkt rfl).resolve_left hconv
    obtain ⟨hout, hcarries⟩ := sendHook_chunk ⟨pkt, hpkt, hport, hsize, hrun⟩ hcarry
    rw [rechunker_step (j + 1) cable hpkt] at hout hcarries
    rw [hstep]
    refine ⟨hcarries, ?_⟩
    exact List.map_injective_iff.2 (transport_injective _) (hsent.step.symm.trans hout)

/-- **Calls for all ports**: the sender of a cable takes those for its port. -/
theorem sender_run (hc : c < omsCables) {calls : List PlacedCall}
    (hcarry : (s.port j c).Carries carry)
    (hsay : ∀ pkt ∈ calls.filterMap (PlacedCall.for? (j + 1) c), pkt.Sayable) :
    let pkts := calls.filterMap (PlacedCall.for? (j + 1) c)
    ((sendHook.final s calls).port j c).Carries ((sender c).final carry pkts) ∧
      ((sendHook.out s calls).filterMap (OmsEntry.wired? (j + 1))).filter (fun p => p.cable = c) =
        (sender c).out carry pkts := by
  induction calls generalizing s carry with
  | nil => exact ⟨hcarry, rfl⟩
  | cons call calls ih =>
    have hcons : (call :: calls).filterMap (PlacedCall.for? (j + 1) c) =
        (call.for? (j + 1) c).toList ++ calls.filterMap (PlacedCall.for? (j + 1) c) := by
      rcases hfor : call.for? (j + 1) c with _ | pkt
      · rw [List.filterMap_cons_none hfor]
        rfl
      · rw [List.filterMap_cons_some hfor]
        rfl
    rw [hcons] at hsay ⊢
    obtain ⟨hcarry₁, hwired⟩ := sendHook_sender hc hcarry
      fun pkt hp => hsay pkt (List.mem_append_left _ (Option.mem_toList.2 hp))
    obtain ⟨hfinal, hout⟩ := ih hcarry₁ fun pkt hp => hsay pkt (List.mem_append_right _ hp)
    refine ⟨by rw [Mealy.final_append]; exact hfinal, ?_⟩
    rw [Mealy.out_cons, List.filterMap_append, List.filter_append, hwired, hout, Mealy.out_append]

end

/-! ## The other end -/

/-- While the stream goes on, the listener gets packets only. -/
theorem inputs_streaming {t i c : ℕ} {es : List OmsEvent} (h : ∀ e ∈ es, e.Streaming i c) :
    ∃ pss : List (List EventPacket), es.flatMap (OmsEvent.inputs t i c) = pss.map .packets ∧
      pss.flatten = (es.flatMap (OmsEvent.arrived t i)).filter fun p => p.cable = c := by
  induction es with
  | nil => exact ⟨[], rfl, rfl⟩
  | cons e es ih =>
    obtain ⟨he, hes⟩ := List.forall_mem_cons.1 h
    obtain ⟨pss, hins, harr⟩ := ih hes
    -- the event brings packets, or it is nothing to the cable
    have hone : ∃ qss : List (List EventPacket), e.inputs t i c = qss.map .packets ∧
        qss.flatten = (e.arrived t i).filter fun p => p.cable = c := by
      have hnone : e.inputs t i c = [] → e.arrived t i = [] →
          ∃ qss : List (List EventPacket), e.inputs t i c = qss.map .packets ∧
            qss.flatten = (e.arrived t i).filter fun p => p.cable = c :=
        fun h1 h2 => ⟨[], h1, by rw [h2]; rfl⟩
      cases e with
      | completion t' j data =>
        by_cases hown : t' = t ∧ j = i
        · refine ⟨[cablePackets c data], if_pos hown, ?_⟩
          rw [OmsEvent.arrived, if_pos hown, List.flatten_cons, List.flatten_nil, List.append_nil]
          rfl
        · exact hnone (if_neg hown) (if_neg hown)
      | message m =>
        cases m with
        | startMIDI2 devices => exact he.elim
        | stopMIDI => exact he.elim
        | setPortReceiveRefNum portID ioRefNum => exact hnone (if_neg he) rfl
        | _ => exact hnone rfl rfl
      | _ => exact hnone rfl rfl
    obtain ⟨qss, hqs, hq⟩ := hone
    refine ⟨qss ++ pss, ?_, ?_⟩
    · rw [List.flatMap_cons, hqs, hins, List.map_append]
    · rw [List.flatMap_cons, List.filter_append, List.flatten_append, hq, harr]

/-- **From hook to hook.**  One shim, in any state, gets any calls of its send hook, for all
    ports interleaved and whatever lies behind their arrays; those for cable `c` of its
    interface `j` pass the messages `msgs` and find no carry.  Another one, in any
    reachable state in which its interface `i` is attached, with a ring and with cable
    `c` a refnum, and `OMSReceivedFromPort` is resolved, starts MIDI; of the events that
    follow, none detaches the class driver or resets the stream, and the transfers of the
    interface bring the packets that the first shim put on its interface `j`, in this order.
    Then OMS gets the messages of the cable in order, a SysEx run in pieces. -/
theorem wire_roundTrip {c : ℕ} (hc : c < omsCables) {s₁ : Oms} {j : ℕ}
    (hcarry : (s₁.port j c).txCarryLen = 0) {calls : List PlacedCall} {msgs : List (List UInt8)}
    {pktss : List (List OmsMidiPacket)} (hsaid : List.Forall₂ (Says c) msgs pktss)
    (hown : calls.filterMap (PlacedCall.for? (j + 1) c) = pktss.flatten)
    {drivers₂ : ℕ → ClassDriver} (hdrivers₂ : ∀ t, (drivers₂ t).Fresh) {s₂ s₂' : Oms}
    (h₂ : Reach omsStep (fun _ _ => True) (.boot drivers₂) s₂) {t i : ℕ} (hd : s₂.Drains i t)
    (hhook : (s₂.drivers t).hooks i = true) (hr : s₂.g.rxRoutine ≠ 0)
    (hbuf : ((s₂.drivers t).rings i).buf ≠ none) (hrefnum : 0 ≤ (s₂.port i c).refnum)
    {devices : List (ℤ × SymbolAnswer)} {es : List OmsEvent}
    (hok : RunOk omsStep (OmsEvent.Attached t) s₂ (.message (.startMIDI2 devices) :: es))
    (hrun : runEvents omsStep s₂ (.message (.startMIDI2 devices) :: es) = some s₂')
    (hstream : ∀ e ∈ es, e.Streaming i c)
    (hwire : es.flatMap (OmsEvent.arrived t i) =
      (sendHook.out s₁ calls).filterMap (OmsEntry.wired? (j + 1))) :
    ∃ gs, List.Forall₂ Received msgs gs ∧
      heardAlong t i c s₂ (.message (.startMIDI2 devices) :: es) =
        gs.flatten.map fun m => (omsPacketOf (s₂.port i c).refnum m, (s₂.port i c).refnum) := by
  have hsay : ∀ pkt ∈ calls.filterMap (PlacedCall.for? (j + 1) c), pkt.Sayable := by
    rw [hown]
    exact says_sayable hsaid
  obtain ⟨-, hwired⟩ := sender_run hc (OmsPort.carries_nil.2 hcarry) hsay
  obtain ⟨pss, hpss, hsent, -⟩ := says_sender hc hsaid
  obtain ⟨gs, hgs, hos, -⟩ := decode_messages hc hpss
  obtain ⟨qss, hins, harr⟩ := inputs_streaming (t := t) hstream
  obtain ⟨hheard, -⟩ :=
    (Oms.Attached.reach hdrivers₂ h₂ hc hd hhook hr hbuf).started_run hc hok hrun
  refine ⟨gs, hgs, ?_⟩
  have hpackets : qss.flatten = pss.flatten := by
    rw [harr, hwire, hwired, hown, hsent]
  have hout : decoder.out false pss.flatten = gs.flatten := by
    rw [Mealy.out, hos]
    exact List.flatMap_singleton' _
  rw [hheard, hins, (listener_packets _ rfl qss).1, hpackets, expected,
    if_neg (Int16.not_lt.2 hrefnum), hout]

/-- A SysEx run in two chunks, and a Program Change. -/
def wireStart : OmsMidiPacket := ⟨omsStartCont, 4, [0xF0, 0x01, 0x02, 0x03], rfl⟩
def wireEnd : OmsMidiPacket := ⟨omsEndCont, 2, [0x04, 0xF7, 0x00, 0x00], rfl⟩
def wireProgram : OmsMidiPacket := ⟨omsNoCont, 2, [0xC0, 0x05, 0x00, 0x00], rfl⟩

/-- They are sent on cable 2.  Between the chunks come a Note On and a SysEx that is said
    to have five bytes, both for cable 1. -/
def wireCalls : List PlacedCall :=
  [⟨⟨some wireStart, 0x0102⟩, fun _ => 0⟩,
    ⟨⟨some ⟨omsNoCont, 3, [0x90, 0x45, 0x40, 0x00], rfl⟩, 0x0101⟩, fun _ => 0⟩,
    ⟨⟨some ⟨omsNoCont, 5, [0xF0, 0x0A, 0x0B, 0x0C], rfl⟩, 0x0101⟩, fun _ => 0xF7⟩,
    ⟨⟨some wireEnd, 0x0102⟩, fun _ => 0⟩, ⟨⟨some wireProgram, 0x0102⟩, fun _ => 0⟩]

/-- Their packets, cut after the first one. -/
def wireEvents : List OmsEvent :=
  [.completion 0 0 [0x24, 0xF0, 0x01, 0x02],
    .completion 0 0 [0x1A, 0x90, 0x45, 0x40, 0x28, 0x03, 0x04, 0xF7, 0x2D, 0xC0, 0x05, 0x00]]

theorem wire_roundTrip_two : ∃ gs,
    List.Forall₂ Received [[0xF0, 0x01, 0x02, 0x03, 0x04, 0xF7], [0xC0, 0x05]] gs ∧
      heardAlong 0 0 2 (afterEvents cableTwoEvents) (.message (.startMIDI2 []) :: wireEvents) =
        gs.flatten.map fun m => (omsPacketOf 7 m, 7) := by
  have hbefore : RunOk omsStep (fun _ _ => True) (.boot fun _ => .single) cableTwoEvents := runOk_true
  have hreach := Reach.of_run hbefore (show _ = some (afterEvents cableTwoEvents) from rfl)
  have hok : RunOk omsStep (OmsEvent.Attached 0) (afterEvents cableTwoEvents)
      (.message (.startMIDI2 []) :: wireEvents) := by decide +kernel
  obtain ⟨s', hs'⟩ : ∃ s', runEvents omsStep (afterEvents cableTwoEvents)
      (.message (.startMIDI2 []) :: wireEvents) = some s' := ⟨_, rfl⟩
  have hcarry : ((Oms.boot fun _ => .single).port 0 2).txCarryLen = 0 := rfl
  have hsent : wireEvents.flatMap (OmsEvent.arrived 0 0) =
      (sendHook.out (.boot fun _ => .single) wireCalls).filterMap (OmsEntry.wired? 1) := by
    decide +kernel
  have hsplit : Chunked ((wireStart :: ([] ++ [wireEnd])).flatMap OmsMidiPacket.bytes)
      (wireStart :: ([] ++ [wireEnd])) := .split rfl (List.forall_mem_nil _) rfl (by decide)
  have hprogram : wireProgram.Conventional := by decide
  have hsaid : List.Forall₂ (Says 2) [[0xF0, 0x01, 0x02, 0x03, 0x04, 0xF7], [0xC0, 0x05]]
      [[wireStart, wireEnd], [wireProgram]] :=
    .cons (.run (by decide) hsplit) (.cons (.message hprogram (by decide)) .nil)
  exact wire_roundTrip (by decide) hcarry hsaid rfl
    (fun _ => ClassDriver.single_fresh) hreach (t := 0) (i := 0)
    ⟨by decide, rfl, rfl, by decide⟩ rfl (by decide) nofun (by decide) hok hs' (by decide) hsent

end Usbmidi9
