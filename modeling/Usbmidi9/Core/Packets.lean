/-
  USBMIDI9 — USB-MIDI 1.0 Event Packets (`core/packets.h`, `core/packets.c`).

  An Event Packet is four bytes: the cable number and the Code Index Number
  (CIN) in the nibbles of the first one, then up to three MIDI bytes.

  * `um9CinDataLength`, `um9PacketDecode`, `um9CinForStatus` and
    `um9PacketEncode` are the functions of `packets.c`, with its table and its
    CIN constants as the source has them;
  * `EventPacket.ofNibbles` is the four-byte row that the encoders of the
    repository write.

  Pointers are non-NULL throughout; a byte buffer with its length is a list.
-/
import Mathlib

namespace Usbmidi9

/-! ## Constants -/

/-- `UM9_PACKET_SIZE`. -/
abbrev um9PacketSize : ℕ := 4

/-- `UM9_MAX_CABLE`. -/
abbrev um9MaxCable : ℕ := 15

@[match_pattern] abbrev cinMisc : ℕ := 0x0
@[match_pattern] abbrev cinCableEvent : ℕ := 0x1
@[match_pattern] abbrev cinSysCommon2 : ℕ := 0x2
@[match_pattern] abbrev cinSysCommon3 : ℕ := 0x3
@[match_pattern] abbrev cinSysexStart : ℕ := 0x4
@[match_pattern] abbrev cinSysCommon1 : ℕ := 0x5
@[match_pattern] abbrev cinSysexEnd1 : ℕ := 0x6
@[match_pattern] abbrev cinSysexEnd2 : ℕ := 0x7
@[match_pattern] abbrev cinSysexEnd3 : ℕ := 0x8
@[match_pattern] abbrev cinProgramChange : ℕ := 0xD
@[match_pattern] abbrev cinChannelPressure : ℕ := 0xE

/-- The CINs that carry no MIDI byte or move the SysEx state; every other one
    is a message on its own. -/
def specialCins : List ℕ :=
  [cinMisc, cinCableEvent, cinSysexStart, cinSysexEnd1, cinSysexEnd2, cinSysexEnd3]

theorem notMem_specialCins {n : ℕ} : n ∉ specialCins ↔ n ≠ cinMisc ∧ n ≠ cinCableEvent ∧
    n ≠ cinSysexStart ∧ n ≠ cinSysexEnd1 ∧ n ≠ cinSysexEnd2 ∧ n ≠ cinSysexEnd3 := by
  simp only [specialCins, List.mem_cons, List.not_mem_nil, or_false, not_or, ne_eq]

/-! ## Packets -/

/-- One four-byte Event Packet, as it lies in a transfer. -/
structure EventPacket where
  b0 : UInt8
  b1 : UInt8
  b2 : UInt8
  b3 : UInt8
deriving DecidableEq, Repr, Inhabited

namespace EventPacket

/-- The bytes of a packet, in transfer order. -/
def bytes (p : EventPacket) : List UInt8 := [p.b0, p.b1, p.b2, p.b3]

/-- The cable number: `(byte0 >> 4) & 0x0F`. -/
def cable (p : EventPacket) : ℕ := (p.b0.toNat >>> 4) &&& 0x0F

/-- The Code Index Number: `byte0 & 0x0F`. -/
def cin (p : EventPacket) : ℕ := p.b0.toNat &&& 0x0F

theorem cable_lt (p : EventPacket) : p.cable < 16 :=
  lt_of_le_of_lt Nat.and_le_right (by decide)

theorem cin_lt (p : EventPacket) : p.cin < 16 :=
  lt_of_le_of_lt Nat.and_le_right (by decide)

/-- The row the encoders write for a cable, a CIN and up to three MIDI bytes
    (`um9_tx_packet_build`, `oms_tx_emit`): unused bytes are zero. -/
def ofNibbles (cable cin : ℕ) (data : List UInt8) : EventPacket where
  b0 := UInt8.ofNat (((cable &&& 0x0F) <<< 4) ||| (cin &&& 0x0F))
  b1 := data.getD 0 0
  b2 := data.getD 1 0
  b3 := data.getD 2 0

/-- The CIN is masked, so the cable nibble is the cable whatever the CIN. -/
theorem cable_ofNibbles {c : ℕ} (hc : c < 16) (n : ℕ) (data : List UInt8) :
    (ofNibbles c n data).cable = c := by
  have h : ∀ c n : Fin 16, (ofNibbles c n []).cable = c := by decide
  have hn := h ⟨c, hc⟩ ⟨n &&& 0x0F, lt_of_le_of_lt Nat.and_le_right (by decide)⟩
  simpa [ofNibbles, cable, Nat.and_assoc] using hn

theorem cin_ofNibbles {c n : ℕ} (hc : c < 16) (hn : n < 16) (data : List UInt8) :
    (ofNibbles c n data).cin = n := by
  have h : ∀ c n : Fin 16, (ofNibbles c n []).cin = n := by decide
  exact h ⟨c, hc⟩ ⟨n, hn⟩

end EventPacket

/-- `um9_packet`: one decoded Event Packet. -/
structure Um9Packet where
  cable : ℕ
  cin : ℕ
  length : ℕ
  data : List UInt8
deriving DecidableEq, Repr

/-! ## Decoding -/

/-- `um9_cin_lengths`: the MIDI byte count of each CIN. -/
def um9CinLengths : List ℕ := [0, 1, 2, 3, 3, 1, 1, 2, 3, 3, 3, 3, 3, 2, 2, 3]

/-- `um9_cin_data_length`. -/
def um9CinDataLength (cin : ℕ) : ℕ :=
  if cin > 15 then 0 else um9CinLengths.getD cin 0

theorem um9CinDataLength_le (cin : ℕ) : um9CinDataLength cin ≤ 3 := by
  unfold um9CinDataLength
  split_ifs with h
  · exact Nat.zero_le 3
  · have hall : ∀ n : Fin 16, um9CinLengths.getD n 0 ≤ 3 := by decide
    exact hall ⟨cin, by omega⟩

/-- Only the miscellaneous CIN carries no MIDI byte. -/
theorem um9CinDataLength_pos {cin : ℕ} (h0 : cin ≠ cinMisc) (h : cin < 16) :
    0 < um9CinDataLength cin := by
  have hall : ∀ n : Fin 16, n.val ≠ cinMisc → 0 < um9CinDataLength n := by decide
  exact hall ⟨cin, h⟩ h0

/-- `um9_packet_decode`: fails unless there are exactly four bytes. -/
def um9PacketDecode : List UInt8 → Option Um9Packet
  | [b0, b1, b2, b3] =>
    let p : EventPacket := ⟨b0, b1, b2, b3⟩
    some ⟨p.cable, p.cin, um9CinDataLength p.cin, [b1, b2, b3]⟩
  | _ => none

@[simp] theorem um9PacketDecode_bytes (p : EventPacket) :
    um9PacketDecode p.bytes =
      some ⟨p.cable, p.cin, um9CinDataLength p.cin, [p.b1, p.b2, p.b3]⟩ := rfl

/-! ## Encoding -/

/-- `um9_cin_for_status`: the CIN of a status byte and the message length it
    requires; none for SysEx (F0, F7), for the undefined F4 and F5 and for
    data bytes. -/
def um9CinForStatus (status : ℕ) : Option (ℕ × ℕ) :=
  if 0x80 ≤ status ∧ status ≤ 0xEF then
    let cin := (status >>> 4) + 1
    some (cin, if cin = cinProgramChange ∨ cin = cinChannelPressure then 2 else 3)
  else if status = 0xF1 ∨ status = 0xF3 then some (cinSysCommon2, 2)
  else if status = 0xF2 then some (cinSysCommon3, 3)
  else if status = 0xF6 ∨ (0xF8 ≤ status ∧ status ≤ 0xFF) then some (cinSysCommon1, 1)
  else none

/-- `um9_packet_encode`: the packet of a complete message of one to three
    bytes. -/
def um9PacketEncode (cable : ℕ) (msg : List UInt8) : Option Um9Packet :=
  if cable > um9MaxCable then none
  else if msg.length < 1 ∨ 3 < msg.length then none
  else match um9CinForStatus (msg.getD 0 0).toNat with
    | none => none
    | some (cin, need) =>
      if msg.length ≠ need then none
      else some ⟨cable, cin, msg.length, [msg.getD 0 0, msg.getD 1 0, msg.getD 2 0]⟩

/-- What the status table promises: the CIN is a message CIN whose data length
    is the length the status requires. -/
theorem um9CinForStatus_spec {status cin need : ℕ} (hs : status < 256)
    (h : um9CinForStatus status = some (cin, need)) :
    cin < 16 ∧ um9CinDataLength cin = need ∧ cin ∉ specialCins := by
  have hall : ∀ s : Fin 256, ∀ p ∈ um9CinForStatus s, p.1 < 16 ∧
      um9CinDataLength p.1 = p.2 ∧ p.1 ∉ specialCins := by decide +kernel
  exact hall ⟨status, hs⟩ (cin, need) h

/-- **Encoding succeeds exactly on messages of the length their status
    requires.** -/
theorem um9PacketEncode_eq_some {cable : ℕ} {msg : List UInt8} {pkt : Um9Packet} :
    um9PacketEncode cable msg = some pkt ↔
      cable ≤ um9MaxCable ∧ 1 ≤ msg.length ∧ msg.length ≤ 3 ∧
        ∃ cin, um9CinForStatus (msg.getD 0 0).toNat = some (cin, msg.length) ∧
          pkt = ⟨cable, cin, msg.length, [msg.getD 0 0, msg.getD 1 0, msg.getD 2 0]⟩ := by
  unfold um9PacketEncode
  constructor
  · intro h
    split_ifs at h with hc hl
    rcases hs : um9CinForStatus (msg.getD 0 0).toNat with _ | ⟨cin, need⟩
    · simp only [hs, reduceCtorEq] at h
    · simp only [hs] at h
      split_ifs at h with hn
      · cases h
        exact ⟨by omega, by omega, by omega, cin, by rw [not_ne_iff.1 hn], rfl⟩
  · rintro ⟨hc, h1, h3, cin, hs, rfl⟩
    rw [if_neg (by omega), if_neg (by omega), hs]
    simp

end Usbmidi9
