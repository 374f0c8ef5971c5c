/-
  USBMIDI9 — the receive stream against Table 4-1 of USB-MIDI 1.0.

  `table41` packetises a complete MIDI message as the standard's Table 4-1 does:
  the CIN of a channel message is the high nibble of its status, and a SysEx run
  ends with CIN 0x5, 0x6 or 0x7.  The constants of `packets.h` name the same
  table but are one higher for SysEx ends and channel messages, and give the
  one-byte messages CIN 0x5, so the stream decodes the standard's packets only
  where CIN and length happen to fit.

  * `AgreesWithTable` are the statuses where they do: Note On, Poly Key
    Pressure, Control Change, Channel Pressure, F1, F2, F3 and F6;
  * `rx_stream_conforms_iff`: the standard's packets of a list of messages are
    decoded to these messages exactly if every status is one of them.

  The data bytes of a message are arbitrary: neither side looks at them.
-/
import Usbmidi9.Core.Decoder

namespace Usbmidi9

/-! ## The standard's packetisation -/

/-- Table 4-1 for a status byte: the CIN and the length of its message; none
    for SysEx, for the undefined statuses and for data bytes. -/
def table41Cin (status : ℕ) : Option (ℕ × ℕ) :=
  if 0x80 ≤ status ∧ status < 0xF0 then
    some (status / 16, if status / 16 = 0xC ∨ status / 16 = 0xD then 2 else 3)
  else if status = 0xF1 ∨ status = 0xF3 then some (0x2, 2)
  else if status = 0xF2 then some (0x3, 3)
  else if status = 0xF6 then some (0x5, 1)
  else if 0xF8 ≤ status then some (0xF, 1)
  else none

/-- The complete messages that Table 4-1 packetises. -/
inductive MidiMessage : List UInt8 → Prop
  | fixed {status data cin} :
      table41Cin status.toNat = some (cin, data.length + 1) → MidiMessage (status :: data)
  | sysex (body) : MidiMessage (0xF0 :: (body ++ [0xF7]))

/-- The CINs of a SysEx run, each with the message its packet is to yield: CIN
    0x4 for every three bytes, then 0x5, 0x6 or 0x7 for the last one to three. -/
def table41Sysex (first : Bool) : List UInt8 → List (ℕ × Message)
  | a :: b :: c :: d :: rest =>
    (0x4, ⟨[a, b, c], if first then .start else .mid⟩) :: table41Sysex false (d :: rest)
  | last => [(0x4 + last.length, ⟨last, if first then .none else .end_⟩)]

/-- The CINs of a message's packets, each with the message it is to yield. -/
def table41 (m : List UInt8) : List (ℕ × Message) :=
  match table41Cin (m.headD 0).toNat with
  | some (cin, _) => [(cin, ⟨m, .none⟩)]
  | none => table41Sysex true m

/-- The packets of a message on a cable. -/
def referencePackets (cable : ℕ) (m : List UInt8) : List EventPacket :=
  (table41 m).map fun r => .ofNibbles cable r.1 r.2.bytes

/-- What each of these packets is to yield. -/
def referenceOuts (m : List UInt8) : List (List Message) := (table41 m).map fun r => [r.2]

/-- The statuses whose messages the stream decodes from the standard's packets. -/
def AgreesWithTable (status : ℕ) : Prop :=
  status / 16 ∈ [0x9, 0xA, 0xB, 0xD] ∨ status ∈ [0xF1, 0xF2, 0xF3, 0xF6]

instance (status : ℕ) : Decidable (AgreesWithTable status) := inferInstanceAs (Decidable (_ ∨ _))

/-! ## One message -/

theorem table41_fixed {status : UInt8} {data : List UInt8} {cin need : ℕ}
    (h : table41Cin status.toNat = some (cin, need)) :
    table41 (status :: data) = [(cin, ⟨status :: data, .none⟩)] := by
  simp only [table41, List.headD_cons, h]

theorem referencePackets_cable {c : ℕ} (hc : c < 16) (m : List UInt8) :
    ∀ p ∈ referencePackets c m, p.cable = c := by
  rintro p hp
  obtain ⟨r, -, rfl⟩ := List.mem_map.1 hp
  exact EventPacket.cable_ofNibbles hc _ _

/-- Where the tables fit, the CIN is a message CIN of the message's length. -/
theorem table41Cin_agrees {status cin need : ℕ} (hs : status < 256)
    (h : table41Cin status = some (cin, need)) (ha : AgreesWithTable status) :
    cin < 16 ∧ need = um9CinDataLength cin ∧ cin ∉ specialCins := by
  have hall : ∀ s : Fin 256, ∀ p ∈ table41Cin s, AgreesWithTable s →
      p.1 < 16 ∧ p.2 = um9CinDataLength p.1 ∧ p.1 ∉ specialCins := by decide +kernel
  exact hall ⟨status, hs⟩ (cin, need) h ha

/-- Elsewhere it ends a SysEx run or has another length. -/
theorem table41Cin_disagrees {status cin need : ℕ} (hs : status < 256)
    (h : table41Cin status = some (cin, need)) (ha : ¬AgreesWithTable status) :
    status ≠ 0xF0 ∧ cin < 16 ∧ (cin = cinSysexEnd3 ∨ need ≠ um9CinDataLength cin) := by
  have hall : ∀ s : Fin 256, ∀ p ∈ table41Cin s, ¬AgreesWithTable s →
      s.val ≠ 0xF0 ∧ p.1 < 16 ∧ (p.1 = cinSysexEnd3 ∨ p.2 ≠ um9CinDataLength p.1) := by
    decide +kernel
  exact hall ⟨status, hs⟩ (cin, need) h ha

section
variable {c : ℕ} (hc : c < 16)
include hc

theorem decode_agrees {m : List UInt8} (hm : MidiMessage m)
    (ha : AgreesWithTable (m.headD 0).toNat) (b : Bool) :
    decoder.outs b (referencePackets c m) = referenceOuts m ∧
      decoder.final b (referencePackets c m) = b := by
  cases hm with
  | @fixed status data n h =>
    obtain ⟨hn, hlen, hspec⟩ := table41Cin_agrees (UInt8.toNat_lt _) h ha
    have hp : (EventPacket.ofNibbles c _ (status :: data)).payload = status :: data :=
      EventPacket.payload_ofNibbles hc hn hlen
    simp only [referencePackets, referenceOuts, table41_fixed h, List.map_cons, List.map_nil,
      Mealy.outs_cons, Mealy.outs_nil, Mealy.final_cons, Mealy.final_nil, decoder]
    rw [decodeStep_message b (by rwa [EventPacket.cin_ofNibbles hc hn]), hp]
    exact ⟨rfl, rfl⟩
  | sysex body => exact absurd (show AgreesWithTable 0xF0 from ha) (by decide)

/-- A packet yields no message of another length than its CIN's. -/
theorem decodeStep_length_ne {n : ℕ} (hn : n < 16) {data : List UInt8}
    (h : data.length ≠ um9CinDataLength n) (b : Bool) (x : SysexPos) :
    (decodeStep b (.ofNibbles c n data)).2 ≠ [⟨data, x⟩] := by
  intro he
  have hb : data = (EventPacket.ofNibbles c n data).payload :=
    decodeStep_bytes (p := .ofNibbles c n data) (m := ⟨data, x⟩) b (by rw [he]; simp)
  rw [hb, EventPacket.length_payload, EventPacket.cin_ofNibbles hc hn] at h
  exact h rfl

/-- The last packet of a run is never decoded to the run's end: CIN 0x5 is a
    message to the stream, and 0x6 and 0x7 are one byte short. -/
theorem decode_sysex_ne (first : Bool) (run : List UInt8) (h0 : run ≠ [])
    (h1 : first = true → 2 ≤ run.length) (b : Bool) :
    decoder.outs b ((table41Sysex first run).map fun r => .ofNibbles c r.1 r.2.bytes) ≠
      (table41Sysex first run).map fun r => [r.2] := by
  fun_induction table41Sysex first run generalizing b with
  | case1 first x y z d rest ih =>
    intro he
    simp only [List.map_cons, Mealy.outs_cons, List.cons.injEq] at he
    exact ih (by simp) (by simp) _ he.2
  | case2 first last hshort =>
    simp only [List.map_cons, List.map_nil, Mealy.outs_cons, Mealy.outs_nil, ne_eq,
      List.cons.injEq, and_true, decoder]
    rcases last with _ | ⟨x, _ | ⟨y, _ | ⟨z, _ | ⟨d, rest⟩⟩⟩⟩
    · exact absurd rfl h0
    · have hf : first = false := by cases first <;> simp_all
      subst hf
      have hcin : (EventPacket.ofNibbles c 5 [x]).cin = 5 := EventPacket.cin_ofNibbles hc (by decide) _
      rw [List.length_singleton, decodeStep_message b (by rw [hcin]; decide)]
      simp
    · exact decodeStep_length_ne hc (n := 6) (by decide)
        (by simp [um9CinDataLength, um9CinLengths]) b _
    · exact decodeStep_length_ne hc (n := 7) (by decide)
        (by simp [um9CinDataLength, um9CinLengths]) b _
    · exact absurd rfl (hshort x y z d rest)

theorem decode_disagrees {m : List UInt8} (hm : MidiMessage m)
    (ha : ¬AgreesWithTable (m.headD 0).toNat) (b : Bool) :
    decoder.outs b (referencePackets c m) ≠ referenceOuts m := by
  cases hm with
  | @fixed status data n h =>
    obtain ⟨h0, hn, hor⟩ := table41Cin_disagrees (UInt8.toNat_lt _) h ha
    simp only [referencePackets, referenceOuts, table41_fixed h, List.map_cons, List.map_nil,
      Mealy.outs_cons, Mealy.outs_nil, ne_eq, List.cons.injEq, and_true, decoder]
    rcases hor with rfl | hlen
    · have hst : status ≠ 0xF0 := fun he => h0 (by rw [he]; rfl)
      rw [decodeStep_end b (.inr (.inr (EventPacket.cin_ofNibbles hc hn _)))]
      simp [EventPacket.ofNibbles, hst]
    · exact decodeStep_length_ne hc hn (show (status :: data).length ≠ _ from hlen) b _
  | sysex body => exact decode_sysex_ne hc true _ (by simp) (by simp) b

/-! ## Streams of messages -/

theorem decoder_conforms_iff {msgs : List (List UInt8)} (hm : ∀ m ∈ msgs, MidiMessage m)
    (b : Bool) :
    decoder.outs b (msgs.flatMap (referencePackets c)) = msgs.flatMap referenceOuts ↔
      ∀ m ∈ msgs, AgreesWithTable (m.headD 0).toNat := by
  induction msgs with
  | nil => simp
  | cons m msgs ih =>
    have hlen : (decoder.outs b (referencePackets c m)).length = (referenceOuts m).length := by
      simp [referencePackets, referenceOuts]
    rw [List.flatMap_cons, List.flatMap_cons, Mealy.outs_append, List.forall_mem_cons]
    by_cases ha : AgreesWithTable (m.headD 0).toNat
    · obtain ⟨h1, h2⟩ := decode_agrees hc (hm m (by simp)) ha b
      rw [h1, h2, List.append_cancel_left_eq, ih fun x hx => hm x (by simp [hx])]
      exact (and_iff_right ha).symm
    · refine iff_of_false ?_ fun h => ha h.1
      intro he
      exact decode_disagrees hc (hm m (by simp)) ha b (List.append_inj he hlen).1

end

/-- **Conformance to Table 4-1.**  Fed the standard's packets of a list of
    messages, with every pending message taken after each packet, a fresh stream
    yields the messages exactly if every status is one where the tables fit. -/
theorem rx_stream_conforms_iff (s : RxStream) {c : ℕ} (hc : c ≤ um9MaxCable)
    {msgs : List (List UInt8)} (hm : ∀ m ∈ msgs, MidiMessage m) :
    um9Feed.outs (um9RxInit s c) (msgs.flatMap (referencePackets c)) =
        msgs.flatMap referenceOuts ↔
      ∀ m ∈ msgs, AgreesWithTable (m.headD 0).toNat := by
  have hc' : c < 16 := Nat.lt_succ_of_le hc
  have hcab : ∀ p ∈ msgs.flatMap (referencePackets c), p.cable = c := fun p hp => by
    obtain ⟨m, -, hpm⟩ := List.mem_flatMap.1 hp
    exact referencePackets_cable hc' m p hpm
  rw [(feed_eq_decoder (um9RxInit_idle s hc) hcab).1]
  exact decoder_conforms_iff hc' hm _

/-- A Note On and a Tune Request. -/
theorem rx_stream_conforms_noteOn :
    um9Feed.outs (um9RxInit default 3)
        ([[0x93, 0x3C, 0x40], [0xF6]].flatMap (referencePackets 3)) =
      [[0x93, 0x3C, 0x40], [0xF6]].flatMap referenceOuts :=
  (rx_stream_conforms_iff default (by decide) (by
    simp only [List.forall_mem_cons]
    exact ⟨.fixed rfl, .fixed rfl, nofun⟩)).2 (by decide)

/-- The Note Off packet `08 80 3C 40` is decoded to the end of a SysEx run. -/
theorem rx_stream_noteOff_not_conforming :
    ¬∀ (s : RxStream) (c : ℕ), c ≤ um9MaxCable → ∀ msgs : List (List UInt8),
      (∀ m ∈ msgs, MidiMessage m) →
        um9Feed.outs (um9RxInit s c) (msgs.flatMap (referencePackets c)) =
          msgs.flatMap referenceOuts := by
  intro h
  have hm : ∀ m ∈ [[(0x80 : UInt8), 0x3C, 0x40]], MidiMessage m := by
    simp only [List.forall_mem_cons]
    exact ⟨.fixed rfl, nofun⟩
  have he := h default 0 (by decide) _ hm
  exact absurd he (by decide)

end Usbmidi9
