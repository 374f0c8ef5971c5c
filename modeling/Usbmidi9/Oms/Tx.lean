/-
  USBMIDI9 — the send hook of the shim (`oms/oms_tx.c`).

  `omsTxSend` is the hook.  A conventional message is encoded by
  `um9TxMessage`; a SysEx chunk is appended to the port's carry and cut into
  packets of three bytes (`omsTxSysexChunk`).  The transport is the default one,
  which drops and counts.

  A read beyond the packet's four data bytes or the six bytes of the local carry
  has no defined result: the functions that read them return `none` there.
-/
import Usbmidi9.Oms.State

namespace Usbmidi9

/-- `OMSMIDIPacket`. -/
structure OmsMidiPacket where
  flags : UInt8
  len : UInt8
  data : List UInt8
  size : data.length = 4
deriving DecidableEq

/-- Read the first `n` elements of an array. -/
def readArray (a : List UInt8) (n : ℕ) : Option (List UInt8) :=
  if n ≤ a.length then some (a.take n) else none

/-- `oms_tx_emit`: the packet that goes to the transport. -/
def omsTxPacket (cable cin : ℕ) (data : List UInt8) (len : ℕ) : EventPacket :=
  .ofNibbles cable cin (data.take len)

/-- `oms_tx_emit` of several packets, through the default transport. -/
def omsTxEmit (s : Oms) (portCode : ℕ) (ps : List EventPacket) : Oms :=
  (s.upd fun g => { g with
    txConverted := g.txConverted + UInt32.ofNat ps.length
    txDropped := g.txDropped + UInt32.ofNat ps.length }).log (ps.map (.transport portCode))

/-- `oms_tx_end_cin`. -/
def omsTxEndCin (len : ℕ) : ℕ :=
  if len ≤ 1 then cinSysexEnd1 else if len = 2 then cinSysexEnd2 else cinSysexEnd3

/-- `kTxStart`, `kTxEnd`, `kTxMid` and `kTxWhole`. -/
abbrev kTxStart : ℕ := 1
abbrev kTxEnd : ℕ := 2
abbrev kTxMid : ℕ := 3
abbrev kTxWhole : ℕ := 4

/-- The loop `while (carryLen - pos > 3)` and the end packet; the list is
    `carry + pos`. -/
def omsTxFlush (cable : ℕ) : List UInt8 → List EventPacket
  | a :: b :: c :: d :: rest =>
    omsTxPacket cable cinSysexStart (a :: b :: c :: d :: rest) 3 :: omsTxFlush cable (d :: rest)
  | last => [omsTxPacket cable (omsTxEndCin last.length) last last.length]

/-- The loop `while (carryLen - pos >= 3)`: its packets and what it leaves. -/
def omsTxMiddle (cable : ℕ) : List UInt8 → List EventPacket × List UInt8
  | a :: b :: c :: rest =>
    let r := omsTxMiddle cable rest
    (omsTxPacket cable cinSysexStart (a :: b :: c :: rest) 3 :: r.1, r.2)
  | rest => ([], rest)

/-- What a chunk does: the port, the packets it emits and how often it counts as
    malformed. -/
structure ChunkResult where
  port : OmsPort
  packets : List EventPacket
  malformed : UInt32

/-- `oms_tx_sysex_chunk` from the carry's copy on. -/
def omsTxAppend (port : OmsPort) (cable mode : ℕ) (data : List UInt8) (len : ℕ)
    (malformed : UInt32) : Option ChunkResult :=
  match readArray port.txCarry port.txCarryLen, readArray data len with
  | some old, some new =>
    let carry := old ++ new
    if mode = kTxEnd ∨ mode = kTxWhole then
      some ⟨{ port with txCarryLen := 0 }, omsTxFlush cable carry, malformed⟩
    else
      let r := omsTxMiddle cable carry
      some ⟨{ port with txCarryLen := r.2.length, txCarry := r.2 ++ port.txCarry.drop r.2.length },
        r.1, malformed⟩
  | _, _ => none

/-- `oms_tx_sysex_chunk`. -/
def omsTxSysexChunk (port : OmsPort) (cable mode : ℕ) (data : List UInt8) (len : ℕ) :
    Option ChunkResult :=
  let bad := (mode = kTxStart ∨ mode = kTxWhole) ∧
    (port.txCarryLen ≠ 0 ∨ len = 0 ∨ data.getD 0 0 ≠ 0xF0)
  let port := if bad then { port with txCarryLen := 0 } else port
  let malformed : UInt32 := if bad then 1 else 0
  let rest :=
    if len = 0 ∨ 4 < len then some ⟨port, [], malformed + 1⟩
    else if 6 < port.txCarryLen + len then
      some ⟨{ port with txCarryLen := 0 }, [], malformed + 1⟩
    else omsTxAppend port cable mode data len malformed
  if mode = kTxWhole then
    if len < 2 then some ⟨port, [], malformed + 1⟩
    else match data[len - 1]? with
      | none => none
      | some b => if b ≠ 0xF7 then some ⟨port, [], malformed + 1⟩ else rest
  else rest

/-- A chunk on a port of the shim. -/
def omsTxChunk (s : Oms) (ifaceNo cable mode : ℕ) (pkt : OmsMidiPacket) : Option Oms :=
  (omsTxSysexChunk (s.port (ifaceNo - 1) cable) cable mode pkt.data pkt.len.toNat).map fun r =>
    omsTxEmit
      ((s.setPort (ifaceNo - 1) cable r.port).upd fun g =>
        { g with txMalformed := g.txMalformed + r.malformed })
      ((ifaceNo <<< 8) ||| cable) r.packets

/-- A conventional message. -/
def omsTxMessage (s : Oms) (ifaceNo cable : ℕ) (pkt : OmsMidiPacket) : Oms :=
  if pkt.len < 1 ∨ 3 < pkt.len then s.malformed
  else
    let port := s.port (ifaceNo - 1) cable
    let r := um9TxMessage port.tx cable (pkt.data.take pkt.len.toNat) (fun _ => default) 2
    let s := s.setPort (ifaceNo - 1) cable { port with tx := r.1 }
    if r.2.1 ≠ 1 then s.malformed
    else
      let row := r.2.2 0
      omsTxEmit s ((ifaceNo <<< 8) ||| cable)
        [omsTxPacket cable row.cin [row.b1, row.b2, row.b3] pkt.len.toNat]

/-- `oms_tx_send`. -/
def omsTxSend (s : Oms) (pkt : Option OmsMidiPacket) (refCon : ℕ) : Option Oms :=
  match pkt with
  | none => some s.malformed
  | some pkt =>
    let ifaceNo := (refCon >>> 8) &&& 0xFF
    let cable := refCon &&& 0xFF
    if ifaceNo < 1 ∨ omsMaxInterfaces < ifaceNo ∨ omsCables ≤ cable then some s.malformed
    else
      let cont := pkt.flags &&& omsContMask
      if cont = omsNoCont then
        if 1 ≤ pkt.len ∧ pkt.data.getD 0 0 = 0xF0 then omsTxChunk s ifaceNo cable kTxWhole pkt
        else some (omsTxMessage s ifaceNo cable pkt)
      else omsTxChunk s ifaceNo cable cont.toNat pkt

/-! ## The cases of a chunk -/

/-- What the loop leaves is shorter than a packet. -/
theorem omsTxMiddle_lt (cable : ℕ) (l : List UInt8) : (omsTxMiddle cable l).2.length ≤ 2 := by
  fun_induction omsTxMiddle cable l with
  | case1 a b c rest r ih => exact ih
  | case2 rest hs =>
    match rest with
    | [] | [_] | [_, _] => simp
    | a :: b :: c :: rest => exact absurd rfl (hs a b c rest)

/-- The port that a chunk goes on with, and how often it was counted by then: a start
    drops what a broken run left. -/
def OmsPort.begun (p : OmsPort) (mode : ℕ) (data : List UInt8) (len : ℕ) : OmsPort × UInt32 :=
  if (mode = kTxStart ∨ mode = kTxWhole) ∧ (p.txCarryLen ≠ 0 ∨ len = 0 ∨ data.getD 0 0 ≠ 0xF0) then
    ({ p with txCarryLen := 0 }, 1)
  else (p, 0)

/-- Where `oms_tx_sysex_chunk` ends. -/
inductive ChunkBranch where
  | unterminated
  | badLength
  /-- the branch for a chunk that finds no room, commented "cannot happen" -/
  | cannotHappen
  | appended
deriving DecidableEq, Repr

/-- The branch that a chunk takes. -/
def omsTxSysexChunkBranch (p : OmsPort) (mode : ℕ) (data : List UInt8) (len : ℕ) : ChunkBranch :=
  if mode = kTxWhole ∧ (len < 2 ∨ data.getD (len - 1) 0 ≠ 0xF7) then .unterminated
  else if len = 0 ∨ 4 < len then .badLength
  else if 6 < (p.begun mode data len).1.txCarryLen + len then .cannotHappen
  else .appended

section
variable (p : OmsPort) (cable mode : ℕ) (data : List UInt8) (len : ℕ)

theorem omsTxSysexChunk_begun :
    omsTxSysexChunk p cable mode data len =
      let q := p.begun mode data len
      let rest :=
        if len = 0 ∨ 4 < len then some ⟨q.1, [], q.2 + 1⟩
        else if 6 < q.1.txCarryLen + len then some ⟨{ q.1 with txCarryLen := 0 }, [], q.2 + 1⟩
        else omsTxAppend q.1 cable mode data len q.2
      if mode = kTxWhole then
        if len < 2 then some ⟨q.1, [], q.2 + 1⟩
        else match data[len - 1]? with
          | none => none
          | some b => if b ≠ 0xF7 then some ⟨q.1, [], q.2 + 1⟩ else rest
      else rest := by
  unfold OmsPort.begun omsTxSysexChunk
  simp only
  split_ifs <;> rfl

/-- **A chunk by its branch**, if it is not read behind its data. -/
theorem omsTxSysexChunk_branch (hread : mode = kTxWhole → len ≤ data.length) :
    omsTxSysexChunk p cable mode data len =
      let q := p.begun mode data len
      match omsTxSysexChunkBranch p mode data len with
      | .unterminated | .badLength => some ⟨q.1, [], q.2 + 1⟩
      | .cannotHappen => some ⟨{ q.1 with txCarryLen := 0 }, [], q.2 + 1⟩
      | .appended => omsTxAppend q.1 cable mode data len q.2 := by
  rw [omsTxSysexChunk_begun]
  unfold omsTxSysexChunkBranch
  simp only
  by_cases hw : mode = kTxWhole
  swap
  · have hother : ¬(mode = kTxWhole ∧ (len < 2 ∨ data.getD (len - 1) 0 ≠ 0xF7)) := fun h => hw h.1
    rw [if_neg hw, if_neg hother]
    split_ifs <;> rfl
  have hle := hread hw
  rw [if_pos hw]
  by_cases h2 : len < 2
  · rw [if_pos h2, if_pos ⟨hw, .inl h2⟩]
  have hlt : len - 1 < data.length := by omega
  rw [if_neg h2, List.getD_eq_getElem?_getD, List.getElem?_eq_getElem hlt, Option.getD_some]
  simp only
  by_cases h7 : data[len - 1] ≠ 0xF7
  · rw [if_pos h7, if_pos ⟨hw, .inr h7⟩]
  · have hterm : ¬(mode = kTxWhole ∧ (len < 2 ∨ data[len - 1] ≠ 0xF7)) := fun h => h.2.elim h2 h7
    rw [if_neg h7, if_neg hterm]
    split_ifs <;> rfl

/-- **What a chunk can do**: read behind the data, be refused, overflow the carry, or be
    appended to it. -/
theorem omsTxSysexChunk_cases :
    let q := p.begun mode data len
    (omsTxSysexChunk p cable mode data len = none ∧ mode = kTxWhole ∧ 2 ≤ len ∧
        data.length < len) ∨
      (omsTxSysexChunk p cable mode data len = some ⟨q.1, [], q.2 + 1⟩ ∧
        (mode = kTxWhole → len < 2 ∨ len ≤ data.length) ∧
        (mode = kTxWhole ∧ (len < 2 ∨ ∃ b, data[len - 1]? = some b ∧ b ≠ 0xF7) ∨
          len = 0 ∨ 4 < len)) ∨
      (omsTxSysexChunk p cable mode data len =
          some ⟨{ q.1 with txCarryLen := 0 }, [], q.2 + 1⟩ ∧
        1 ≤ len ∧ len ≤ 4 ∧ 6 < q.1.txCarryLen + len) ∨
      omsTxSysexChunk p cable mode data len = omsTxAppend q.1 cable mode data len q.2 ∧
        1 ≤ len ∧ len ≤ 4 ∧ q.1.txCarryLen + len ≤ 6 := by
  intro q
  by_cases hread : mode = kTxWhole → len ≤ data.length
  swap
  · obtain ⟨hw, hlt⟩ := Classical.not_imp.1 hread
    rw [omsTxSysexChunk_begun]
    simp only [if_pos hw]
    by_cases h2 : len < 2
    · rw [if_pos h2]
      exact .inr (.inl ⟨rfl, fun _ => .inl h2, .inl ⟨hw, .inl h2⟩⟩)
    · have hnone : data[len - 1]? = none := List.getElem?_eq_none_iff.2 (by omega)
      rw [if_neg h2, hnone]
      exact .inl ⟨rfl, hw, by omega, by omega⟩
  have hin : mode = kTxWhole → len < 2 ∨ len ≤ data.length := fun h => .inr (hread h)
  rw [omsTxSysexChunk_branch p cable mode data len hread]
  unfold omsTxSysexChunkBranch
  split_ifs with hbad hlen hfull
  · refine .inr (.inl ⟨rfl, hin, .inl ⟨hbad.1, ?_⟩⟩)
    by_cases h2 : len < 2
    · exact .inl h2
    · have hle := hread hbad.1
      have hlt : len - 1 < data.length := by omega
      have h7 := hbad.2.resolve_left h2
      rw [List.getD_eq_getElem?_getD, List.getElem?_eq_getElem hlt, Option.getD_some] at h7
      exact .inr ⟨data[len - 1], List.getElem?_eq_getElem hlt, h7⟩
  · exact .inr (.inl ⟨rfl, hin, .inr hlen⟩)
  · exact .inr (.inr (.inl ⟨rfl, by omega, by omega, hfull⟩))
  · exact .inr (.inr (.inr ⟨rfl, by omega, by omega, Nat.le_of_not_lt hfull⟩))

end

/-! ## The cases of a call -/

namespace OmsMidiPacket

/-- The continuation state of a packet. -/
def cont (pkt : OmsMidiPacket) : UInt8 := pkt.flags &&& omsContMask

/-- The MIDI bytes of a packet. -/
def bytes (pkt : OmsMidiPacket) : List UInt8 := pkt.data.take pkt.len.toNat

/-- A packet that goes to `um9_tx_message`. -/
abbrev Conventional (pkt : OmsMidiPacket) : Prop :=
  pkt.cont = omsNoCont ∧ ¬(1 ≤ pkt.len ∧ pkt.data.getD 0 0 = 0xF0)

end OmsMidiPacket

/-- The mode of a packet that is a chunk. -/
def OmsMidiPacket.mode (pkt : OmsMidiPacket) : ℕ :=
  if pkt.cont = omsNoCont then kTxWhole else pkt.cont.toNat

/-- Whether a packet goes to the chunk routine as a complete SysEx. -/
theorem OmsMidiPacket.mode_eq_whole {pkt : OmsMidiPacket} :
    pkt.mode = kTxWhole ↔ pkt.cont = omsNoCont := by
  unfold mode
  constructor
  · intro h
    by_contra hcont
    rw [if_neg hcont, cont, UInt8.toNat_and] at h
    have hle : pkt.flags.toNat &&& omsContMask.toNat ≤ 3 := Nat.and_le_right
    rw [h] at hle
    exact absurd hle (by decide)
  · exact fun h => if_pos h

/-- The first byte of a packet that has one. -/
theorem OmsMidiPacket.bytes_head {pkt : OmsMidiPacket} (h : 1 ≤ pkt.len) :
    pkt.bytes.getD 0 0 = pkt.data.getD 0 0 := by
  have h1 : 0 < pkt.len.toNat := h
  rw [bytes, List.getD_eq_getElem?_getD, List.getElem?_take_of_lt h1, List.getD_eq_getElem?_getD]

/-- The port that a `refCon` names, its interface counted from 1. -/
def sendPort? (refCon : ℕ) : Option (ℕ × ℕ) :=
  let ifaceNo := (refCon >>> 8) &&& 0xFF
  let cable := refCon &&& 0xFF
  if ifaceNo < 1 ∨ omsMaxInterfaces < ifaceNo ∨ omsCables ≤ cable then none
  else some (ifaceNo, cable)

section
variable {refCon : ℕ}

/-- The hook's check of its refCon. -/
theorem sendPort?_eq_some {ifaceNo cable : ℕ} (h : sendPort? refCon = some (ifaceNo, cable)) :
    (refCon >>> 8) &&& 0xFF = ifaceNo ∧ refCon &&& 0xFF = cable ∧
      ¬(ifaceNo < 1 ∨ omsMaxInterfaces < ifaceNo ∨ omsCables ≤ cable) := by
  unfold sendPort? at h
  simp only at h
  split_ifs at h with hbad
  simp only [Option.some.injEq, Prod.mk.injEq] at h
  obtain ⟨rfl, rfl⟩ := h
  exact ⟨rfl, rfl, hbad⟩

theorem sendPort?_eq_none (h : sendPort? refCon = none) :
    (refCon >>> 8) &&& 0xFF < 1 ∨ omsMaxInterfaces < (refCon >>> 8) &&& 0xFF ∨
      omsCables ≤ refCon &&& 0xFF := by
  unfold sendPort? at h
  simp only at h
  split_ifs at h with hbad
  exact hbad

theorem sendPort?_bounds {ifaceNo cable : ℕ} (h : sendPort? refCon = some (ifaceNo, cable)) :
    (1 ≤ ifaceNo ∧ ifaceNo ≤ omsMaxInterfaces) ∧ cable < omsCables := by
  obtain ⟨-, -, hgood⟩ := sendPort?_eq_some h
  omega

end

theorem omsTxSend_ignored {s : Oms} {pkt : Option OmsMidiPacket} {refCon : ℕ}
    (h : pkt = none ∨ sendPort? refCon = none) : omsTxSend s pkt refCon = some s.malformed := by
  cases pkt with
  | none => rfl
  | some pkt =>
    have hport : sendPort? refCon = none := by simpa using h
    rw [omsTxSend]
    simp only
    rw [if_pos (sendPort?_eq_none hport)]

theorem omsTxSend_port {s : Oms} {pkt : OmsMidiPacket} {refCon ifaceNo cable : ℕ}
    (h : sendPort? refCon = some (ifaceNo, cable)) :
    omsTxSend s (some pkt) refCon =
      if pkt.cont = omsNoCont ∧ ¬(1 ≤ pkt.len ∧ pkt.data.getD 0 0 = 0xF0) then
        some (omsTxMessage s ifaceNo cable pkt)
      else omsTxChunk s ifaceNo cable pkt.mode pkt := by
  obtain ⟨rfl, rfl, hbad⟩ := sendPort?_eq_some h
  rw [omsTxSend]
  simp only
  rw [if_neg hbad, OmsMidiPacket.mode, OmsMidiPacket.cont]
  by_cases hcont : pkt.flags &&& omsContMask = omsNoCont
  · by_cases h0 : 1 ≤ pkt.len ∧ pkt.data.getD 0 0 = 0xF0
    · rw [if_pos hcont, if_pos h0, if_neg fun h => h.2 h0, if_pos hcont]
    · rw [if_pos hcont, if_neg h0, if_pos ⟨hcont, h0⟩]
  · rw [if_neg hcont, if_neg fun h => hcont h.1, if_neg hcont]

end Usbmidi9
