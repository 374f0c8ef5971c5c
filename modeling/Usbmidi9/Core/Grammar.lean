/-
  USBMIDI9 — what the transmit encoder accepts (`um9_tx_message`).

  `TxGrammar` is the grammar of the messages that have an encoding, and
  `packetsNeeded` the number of their packets, both without the encoder.

  `Checked.um9TxMessage` is the function of the source once more, with its lengths
  and positions as 32-bit words: a sum or a difference that leaves the range panics,
  and so does an access outside the message or the caller's rows.
  `um9TxMessage_spec` says that nothing panics, that exactly the grammar is
  accepted, and what is written.
-/
import Usbmidi9.Core.Transmit
import Usbmidi9.Lib.Outcome

namespace Usbmidi9

/-! ## The grammar -/

/-- The length of a message by its status byte, where the status has one: channel voice
    messages, F1 to F3, F6 and F8 to FF. -/
def FixedLength (status len : ℕ) : Prop :=
  (0x80 ≤ status ∧ status ≤ 0xEF ∧ len = if 0xC0 ≤ status ∧ status ≤ 0xDF then 2 else 3) ∨
    ((status = 0xF1 ∨ status = 0xF3) ∧ len = 2) ∨ (status = 0xF2 ∧ len = 3) ∨
    ((status = 0xF6 ∨ (0xF8 ≤ status ∧ status ≤ 0xFF)) ∧ len = 1)

/-- A message that has an encoding: of the length its status requires, a lone F7, or a
    complete SysEx run. -/
def TxGrammar (msg : List UInt8) : Prop :=
  FixedLength (msg.getD 0 0).toNat msg.length ∨ msg = [0xF7] ∨
    (2 ≤ msg.length ∧ msg.getD 0 0 = 0xF0 ∧ msg.getD (msg.length - 1) 0 = 0xF7)

/-- The packets of a message: three bytes in each for SysEx, one otherwise. -/
def packetsNeeded (msg : List UInt8) : ℕ :=
  if msg.getD 0 0 = 0xF0 then (msg.length + 2) / 3 else 1

instance (status len : ℕ) : Decidable (FixedLength status len) :=
  inferInstanceAs (Decidable (_ ∨ _))

/-- The status table of the source is this one. -/
theorem um9CinForStatus_length {status need : ℕ} (hs : status < 256) (h3 : need ≤ 3) :
    (∃ cin, um9CinForStatus status = some (cin, need)) ↔ FixedLength status need := by
  have hall : ∀ s : Fin 256, ∀ n : Fin 4,
      ((um9CinForStatus s).map Prod.snd = some n.val ↔ FixedLength s n) := by decide +kernel
  rw [← hall ⟨status, hs⟩ ⟨need, by omega⟩, Option.map_eq_some_iff]
  constructor
  · rintro ⟨cin, h⟩
    exact ⟨(cin, need), h, rfl⟩
  · rintro ⟨⟨cin, n⟩, h, rfl⟩
    exact ⟨cin, h⟩

theorem FixedLength.le {status len : ℕ} (h : FixedLength status len) : 1 ≤ len ∧ len ≤ 3 := by
  unfold FixedLength at h
  split_ifs at h <;> omega

/-- **The messages with packets** are those of the grammar. -/
theorem txRows_isSome {cable : ℕ} {msg : List UInt8} :
    (∃ ps, txRows cable msg = some ps) ↔ cable ≤ um9MaxCable ∧ TxGrammar msg := by
  by_cases hc : cable > um9MaxCable
  · rw [txRows, if_pos hc]
    exact iff_of_false (by simp) fun h => absurd h.1 (Nat.not_le.2 hc)
  rw [txRows, if_neg hc, TxGrammar, and_iff_right (Nat.not_lt.1 hc)]
  by_cases hrun : IsRun msg
  · rw [if_pos hrun]
    exact iff_of_true ⟨_, rfl⟩ (.inr (.inr ⟨hrun.2.1, hrun.1, hrun.2.2⟩))
  rw [if_neg hrun]
  by_cases heox : msg = [0xF7]
  · rw [if_pos heox]
    exact iff_of_true ⟨_, rfl⟩ (.inr (.inl heox))
  rw [if_neg heox]
  have hfixed : (∃ pkt, um9PacketEncode cable msg = some pkt) ↔
      FixedLength (msg.getD 0 0).toNat msg.length := by
    constructor
    · rintro ⟨pkt, h⟩
      obtain ⟨-, -, h3, cin, hcin, -⟩ := um9PacketEncode_eq_some.1 h
      exact (um9CinForStatus_length (UInt8.toNat_lt _) h3).1 ⟨cin, hcin⟩
    · intro h
      obtain ⟨h1, h3⟩ := h.le
      obtain ⟨cin, hcin⟩ := (um9CinForStatus_length (UInt8.toNat_lt _) h3).2 h
      exact ⟨_, um9PacketEncode_eq_some.2 ⟨Nat.not_lt.1 hc, h1, h3, cin, hcin, rfl⟩⟩
  constructor
  · rintro ⟨ps, h⟩
    obtain ⟨pkt, hpkt, -⟩ := Option.map_eq_some_iff.1 h
    exact .inl (hfixed.1 ⟨pkt, hpkt⟩)
  · rintro (h | h | h)
    · obtain ⟨pkt, hpkt⟩ := hfixed.2 h
      exact ⟨_, by rw [hpkt]; rfl⟩
    · exact absurd h heox
    · exact absurd ⟨h.2.1, h.1, h.2.2⟩ hrun

/-! ## What is written -/

namespace EventPacket

/-- The three data bytes of a row. -/
def data (p : EventPacket) : List UInt8 := [p.b1, p.b2, p.b3]

theorem data_ofNibbles (cable cin : ℕ) {bytes : List UInt8} (h : bytes.length ≤ 3) :
    (ofNibbles cable cin bytes).data = bytes ++ List.replicate (3 - bytes.length) 0 := by
  rcases bytes with _ | ⟨a, _ | ⟨b, _ | ⟨c, _ | ⟨d, bytes⟩⟩⟩⟩
  · rfl
  · rfl
  · rfl
  · rfl
  · exact absurd h (by simp)

end EventPacket

theorem txRun_data (cable : ℕ) {run : List UInt8} (h : run ≠ []) :
    (txRun cable run).flatMap EventPacket.data =
      run ++ List.replicate (3 * (txRun cable run).length - run.length) 0 := by
  fun_induction txRun cable run with
  | case1 a b c d rest ih =>
    rw [List.flatMap_cons, ih (List.cons_ne_nil _ _)]
    simp only [List.length_cons]
    have hpad : 3 * ((txRun cable (d :: rest)).length + 1) - (rest.length + 1 + 1 + 1 + 1) =
        3 * (txRun cable (d :: rest)).length - (rest.length + 1) := by omega
    rw [hpad]
    rfl
  | case2 last hs =>
    rw [List.flatMap_singleton, EventPacket.data_ofNibbles _ _ (length_le_three hs)]
    rfl

/-- **The packets of a message** are as many as it needs, and carry its bytes and zeros
    behind the last one. -/
theorem txRows_spec {cable : ℕ} {msg : List UInt8} {ps : List EventPacket}
    (h : txRows cable msg = some ps) :
    ps.length = packetsNeeded msg ∧ 3 * ps.length ≤ msg.length + 2 ∧
      ps.flatMap EventPacket.data = msg ++ List.replicate (3 * ps.length - msg.length) 0 := by
  unfold txRows at h
  split_ifs at h with hc hrun heox
  · obtain rfl := Option.some.inj h
    have hne : msg ≠ [] := by
      rintro rfl
      exact absurd hrun.2.1 (by decide)
    have hlen := length_txRun cable hne
    refine ⟨?_, by omega, txRun_data cable hne⟩
    rw [packetsNeeded, if_pos hrun.1]
    exact hlen
  · obtain rfl := Option.some.inj h
    subst heox
    exact ⟨rfl, by simp, rfl⟩
  · obtain ⟨pkt, hpkt, rfl⟩ := Option.map_eq_some_iff.1 h
    obtain ⟨-, h1, h3, cin, hcin, rfl⟩ := um9PacketEncode_eq_some.1 hpkt
    have hstatus : msg.getD 0 0 ≠ 0xF0 := by
      intro hf0
      rw [hf0] at hcin
      exact absurd hcin (by simp [um9CinForStatus])
    refine ⟨?_, by simpa using h1, ?_⟩
    · rw [packetsNeeded, if_neg hstatus]
      rfl
    · rw [List.flatMap_singleton, EventPacket.data_ofNibbles _ _ h3]
      rfl

/-! ## The function with its words -/

namespace Checked

open Outcome (ok panic wordSub slice)

/-- A computation that returns or panics. -/
abbrev TxRun (α : Type) : Type := Outcome Empty α

/-- A sum of the type `unsigned`. -/
def unsigned (n : ℕ) : TxRun ℕ := if n < 2 ^ 32 then ok n else panic

/-- The conversion to `int`. -/
def int (n : ℕ) : TxRun ℕ := if n < 2 ^ 31 then ok n else panic

/-- Write one of the caller's rows. -/
def writeRow (maxPackets : ℕ) (out : ℕ → EventPacket) (row : ℕ) (p : EventPacket) :
    TxRun (ℕ → EventPacket) :=
  if row < maxPackets then ok (Function.update out row p) else panic

/-- `um9_tx_packet_build` with `msg + pos`. -/
def um9TxPacketBuild (cable cin : ℕ) (msg : List UInt8) (pos len : ℕ) : TxRun EventPacket := do
  let data ← slice msg pos (pos + len)
  ok (Usbmidi9.um9TxPacketBuild cable cin data len)

/-- `um9_tx_sysex_packet_count`. -/
def um9TxSysexPacketCount (len : ℕ) : TxRun ℕ := do
  let rest ← wordSub len 3
  let sum ← unsigned (rest + 2)
  unsigned (1 + sum / 3)

/-- The loop `while (len - pos > 3)`, for at most `fuel` rounds. -/
def txSysexMiddle (cable : ℕ) (msg : List UInt8) (maxPackets : ℕ) :
    ℕ → ℕ → (ℕ → EventPacket) → TxRun (ℕ × (ℕ → EventPacket))
  | 0, _, _ => panic
  | fuel + 1, pos, out => do
    let left ← wordSub msg.length pos
    if left > 3 then
      let done ← wordSub pos 3
      let row ← unsigned (1 + done / 3)
      let p ← um9TxPacketBuild cable cinSysexStart msg pos 3
      let out ← writeRow maxPackets out row p
      let pos ← unsigned (pos + 3)
      txSysexMiddle cable msg maxPackets fuel pos out
    else ok (pos, out)

/-- The SysEx branch of `um9_tx_message`, for more than three bytes. -/
def txSysex (s : TxStream) (cable : ℕ) (msg : List UInt8) (out : ℕ → EventPacket)
    (maxPackets : ℕ) : TxRun (TxStream × ℕ × (ℕ → EventPacket)) := do
  let needed ← um9TxSysexPacketCount msg.length
  if needed > maxPackets then ok (s.reject, 0, out)
  else
    let p ← um9TxPacketBuild cable cinSysexStart msg 0 3
    let out ← writeRow maxPackets out 0 p
    let (pos, out) ← txSysexMiddle cable msg maxPackets msg.length 3 out
    let row ← wordSub needed 1
    let left ← wordSub msg.length pos
    let p ← um9TxPacketBuild cable (um9TxEndCin left) msg pos left
    let out ← writeRow maxPackets out row p
    let ret ← int needed
    ok (s.accept, ret, out)

/-- One packet, to the first row. -/
def txOne (s : TxStream) (cable cin : ℕ) (data : List UInt8) (len : ℕ) (out : ℕ → EventPacket)
    (maxPackets : ℕ) : TxRun (TxStream × ℕ × (ℕ → EventPacket)) :=
  if maxPackets < 1 then ok (s.reject, 0, out)
  else do
    let p ← um9TxPacketBuild cable cin data 0 len
    let out ← writeRow maxPackets out 0 p
    ok (s.accept, 1, out)

/-- `um9_tx_message`. -/
def um9TxMessage (s : TxStream) (cable : ℕ) (msg : List UInt8) (out : ℕ → EventPacket)
    (maxPackets : ℕ) : TxRun (TxStream × ℕ × (ℕ → EventPacket)) :=
  let len := msg.length
  if cable > um9MaxCable ∨ len < 1 then ok (s.reject, 0, out)
  else do
    let status ← Outcome.get msg 0
    if status < 0x80 then ok (s.reject, 0, out)
    else if status = 0xF0 then
      if len < 2 then ok (s.reject, 0, out)
      else
        let at_ ← wordSub len 1
        let last ← Outcome.get msg at_
        if last ≠ 0xF7 then ok (s.reject, 0, out)
        else if len ≤ 3 then txOne s cable (um9TxEndCin len) msg len out maxPackets
        else txSysex s cable msg out maxPackets
    else if status = 0xF7 then
      if len ≠ 1 then ok (s.reject, 0, out) else txOne s cable cinSysexEnd1 msg 1 out maxPackets
    else match um9PacketEncode cable msg with
      | none => ok (s.reject, 0, out)
      | some pkt => txOne s pkt.cable pkt.cin pkt.data pkt.length out maxPackets

/-! ### Nothing panics -/

theorem unsigned_eq {n : ℕ} (h : n < 2 ^ 32) : unsigned n = ok n := if_pos h

theorem int_eq {n : ℕ} (h : n < 2 ^ 31) : int n = ok n := if_pos h

theorem writeRow_eq {maxPackets row : ℕ} (h : row < maxPackets) (out : ℕ → EventPacket)
    (p : EventPacket) : writeRow maxPackets out row p = ok (Function.update out row p) := if_pos h

theorem um9TxPacketBuild_eq {msg : List UInt8} {pos len : ℕ} (h : pos + len ≤ msg.length)
    (cable cin : ℕ) :
    um9TxPacketBuild cable cin msg pos len =
      ok (Usbmidi9.um9TxPacketBuild cable cin (msg.drop pos) len) := by
  rw [um9TxPacketBuild, Outcome.slice_eq (Nat.le_add_right pos len) h, Outcome.ok_bind,
    List.drop_take, Nat.add_sub_cancel_left]
  simp only [Usbmidi9.um9TxPacketBuild, List.take_take, Nat.min_self]

theorem um9TxSysexPacketCount_eq {len : ℕ} (h3 : 3 < len) (h : len < 2 ^ 32) :
    um9TxSysexPacketCount len = ok (Usbmidi9.um9TxSysexPacketCount len) := by
  rw [um9TxSysexPacketCount, Outcome.wordSub_eq h3.le, Outcome.ok_bind,
    unsigned_eq (by omega), Outcome.ok_bind, unsigned_eq (by omega)]
  rfl

theorem exists_of_three_lt {l : List UInt8} (h : 3 < l.length) :
    ∃ a b c d rest, l = a :: b :: c :: d :: rest := by
  rcases l with _ | ⟨a, _ | ⟨b, _ | ⟨c, _ | ⟨d, rest⟩⟩⟩⟩
  · exact absurd h (by simp)
  · exact absurd h (by simp)
  · exact absurd h (by simp)
  · exact absurd h (by simp)
  · exact ⟨a, b, c, d, rest, rfl⟩

theorem txSysexMiddle_short {cable pos : ℕ} {rest : List UInt8} (h : rest.length ≤ 3)
    {out : ℕ → EventPacket} : Usbmidi9.txSysexMiddle cable pos rest out = (pos, rest, out) := by
  rcases rest with _ | ⟨a, _ | ⟨b, _ | ⟨c, _ | ⟨d, rest⟩⟩⟩⟩
  · rfl
  · rfl
  · rfl
  · rfl
  · exact absurd h (by simp)

/-- **The loop** writes the rows of the middle packets, and no position leaves the
    message. -/
theorem txSysexMiddle_eq (cable : ℕ) {maxPackets : ℕ} {msg : List UInt8}
    (h : msg.length < 2 ^ 32)
    (hneeded : Usbmidi9.um9TxSysexPacketCount msg.length ≤ maxPackets) (fuel pos : ℕ)
    (hpos : 3 ≤ pos) (hle : pos ≤ msg.length) (hfuel : msg.length < fuel + pos)
    (out : ℕ → EventPacket) :
    ∃ pos' out', txSysexMiddle cable msg maxPackets fuel pos out = ok (pos', out') ∧
      pos' ≤ msg.length ∧
      Usbmidi9.txSysexMiddle cable pos (msg.drop pos) out = (pos', msg.drop pos', out') := by
  induction fuel generalizing pos out with
  | zero => omega
  | succ fuel ih =>
    have hlen : (msg.drop pos).length = msg.length - pos := List.length_drop
    rw [txSysexMiddle, Outcome.wordSub_eq hle, Outcome.ok_bind]
    by_cases hmore : msg.length - pos > 3
    · rw [if_pos hmore, Outcome.wordSub_eq hpos, Outcome.ok_bind, unsigned_eq (by omega),
        Outcome.ok_bind, um9TxPacketBuild_eq (by omega), Outcome.ok_bind]
      rw [Usbmidi9.um9TxSysexPacketCount] at hneeded
      rw [writeRow_eq (by omega), Outcome.ok_bind, unsigned_eq (by omega), Outcome.ok_bind]
      obtain ⟨pos', out', hrun, hle', heq⟩ := ih (pos + 3) (by omega) (by omega) (by omega)
        (Function.update out (1 + (pos - 3) / 3)
          (Usbmidi9.um9TxPacketBuild cable cinSysexStart (msg.drop pos) 3))
      refine ⟨pos', out', hrun, hle', ?_⟩
      rw [← heq]
      obtain ⟨a, b, c, d, rest, hdrop⟩ := exists_of_three_lt (l := msg.drop pos) (by omega)
      rw [Usbmidi9.txSysexMiddle.eq_def, ← List.drop_drop, hdrop]
      rfl
    · rw [if_neg hmore]
      refine ⟨pos, out, rfl, hle, ?_⟩
      exact txSysexMiddle_short (by omega)

theorem txOne_eq {cable cin len : ℕ} {data : List UInt8} (h : len ≤ data.length) (s : TxStream)
    (out : ℕ → EventPacket) (maxPackets : ℕ) :
    txOne s cable cin data len out maxPackets =
      ok (if maxPackets < 1 then (s.reject, 0, out)
        else (s.accept, 1,
          Function.update out 0 (Usbmidi9.um9TxPacketBuild cable cin data len))) := by
  unfold txOne
  split_ifs with hroom
  · rfl
  · have hrow : 0 < maxPackets := by omega
    rw [um9TxPacketBuild_eq (by rwa [Nat.zero_add]), Outcome.ok_bind, writeRow_eq hrow,
      List.drop_zero]
    rfl

theorem txSysex_eq {msg : List UInt8} (h3 : 3 < msg.length) (h : msg.length < 2 ^ 32)
    (s : TxStream) (cable : ℕ) (out : ℕ → EventPacket) (maxPackets : ℕ) :
    txSysex s cable msg out maxPackets =
      ok (if Usbmidi9.um9TxSysexPacketCount msg.length > maxPackets then (s.reject, 0, out)
        else
          let out := Function.update out 0 (Usbmidi9.um9TxPacketBuild cable cinSysexStart msg 3)
          let r := Usbmidi9.txSysexMiddle cable 3 (msg.drop 3) out
          (s.accept, Usbmidi9.um9TxSysexPacketCount msg.length,
            Function.update r.2.2 (Usbmidi9.um9TxSysexPacketCount msg.length - 1)
              (Usbmidi9.um9TxPacketBuild cable (um9TxEndCin (msg.length - r.1)) r.2.1
                (msg.length - r.1)))) := by
  have hone : 1 ≤ Usbmidi9.um9TxSysexPacketCount msg.length := Nat.le_add_right 1 _
  have hret : Usbmidi9.um9TxSysexPacketCount msg.length < 2 ^ 31 := by
    rw [Usbmidi9.um9TxSysexPacketCount]
    omega
  rw [txSysex, um9TxSysexPacketCount_eq h3 h, Outcome.ok_bind]
  by_cases hfits : Usbmidi9.um9TxSysexPacketCount msg.length > maxPackets
  · rw [if_pos hfits, if_pos hfits]
  · rw [if_neg hfits, if_neg hfits, um9TxPacketBuild_eq (by omega), Outcome.ok_bind,
      writeRow_eq (by omega), Outcome.ok_bind, List.drop_zero]
    obtain ⟨pos, out', hrun, hle, heq⟩ := txSysexMiddle_eq cable h (Nat.not_lt.1 hfits)
      msg.length 3 (le_refl 3) (by omega) (by omega)
      (Function.update out 0 (Usbmidi9.um9TxPacketBuild cable cinSysexStart msg 3))
    simp only [hrun, heq, Outcome.ok_bind]
    rw [Outcome.wordSub_eq hone, Outcome.ok_bind, Outcome.wordSub_eq hle, Outcome.ok_bind,
      um9TxPacketBuild_eq (by omega), Outcome.ok_bind, writeRow_eq (by omega), Outcome.ok_bind,
      int_eq hret]
    rfl

/-- **No length, position or row leaves its range**, for any length of 32 bits. -/
theorem um9TxMessage_eq {msg : List UInt8} (h : msg.length < 2 ^ 32) (s : TxStream) (cable : ℕ)
    (out : ℕ → EventPacket) (maxPackets : ℕ) :
    um9TxMessage s cable msg out maxPackets =
      ok (Usbmidi9.um9TxMessage s cable msg out maxPackets) := by
  unfold um9TxMessage Usbmidi9.um9TxMessage
  simp only
  by_cases hbad : cable > um9MaxCable ∨ msg.length < 1
  · rw [if_pos hbad, if_pos (by tauto)]
  rw [if_neg hbad]
  have hpos : 0 < msg.length := by omega
  have hcable : ¬cable > um9MaxCable := fun hc => hbad (.inl hc)
  have hget : ∀ {i : ℕ} (hi : i < msg.length), msg[i] = msg.getD i 0 := fun hi =>
    (List.getD_eq_getElem _ _ hi).symm
  rw [Outcome.get_eq hpos, Outcome.ok_bind, hget hpos]
  by_cases hlow : msg.getD 0 0 < 0x80
  · rw [if_pos hlow, if_pos (.inr (.inr hlow))]
  have hok : ¬(cable > um9MaxCable ∨ msg.length < 1 ∨ msg.getD 0 0 < 0x80) := by tauto
  rw [if_neg hlow, if_neg hok]
  by_cases hf0 : msg.getD 0 0 = 0xF0
  · rw [if_pos hf0, if_pos hf0]
    by_cases htwo : msg.length < 2
    · rw [if_pos htwo, if_pos (.inl htwo)]
    rw [if_neg htwo, Outcome.wordSub_eq (by omega), Outcome.ok_bind,
      Outcome.get_eq (show msg.length - 1 < msg.length by omega), Outcome.ok_bind, hget]
    by_cases hlast : msg.getD (msg.length - 1) 0 = 0xF7
    · have hrun : ¬(msg.length < 2 ∨ msg.getD (msg.length - 1) 0 ≠ 0xF7) := by tauto
      rw [if_neg (not_not.2 hlast), if_neg hrun]
      by_cases hshort : msg.length ≤ 3
      · rw [if_pos hshort, if_pos hshort]
        exact txOne_eq (le_refl _) ..
      · rw [if_neg hshort, if_neg hshort]
        exact txSysex_eq (by omega) h ..
    · rw [if_pos hlast, if_pos (.inr hlast)]
  rw [if_neg hf0, if_neg hf0]
  by_cases hf7 : msg.getD 0 0 = 0xF7
  · rw [if_pos hf7, if_pos hf7]
    by_cases hone : msg.length = 1
    · rw [if_neg (not_not.2 hone), if_neg (not_not.2 hone)]
      exact txOne_eq (by omega) ..
    · rw [if_pos hone, if_pos hone]
  rw [if_neg hf7, if_neg hf7]
  cases hpkt : um9PacketEncode cable msg with
  | none => rfl
  | some pkt =>
    obtain ⟨-, -, hle, cin, -, rfl⟩ := um9PacketEncode_eq_some.1 hpkt
    exact txOne_eq hle ..

end Checked

/-! ## The result -/

/-- **The encoder accepts exactly its grammar and is atomic.**  It returns a positive
    number exactly for a message of the grammar, on one of the sixteen cables, whose
    packets fit.  Then it is their number, the first rows carry the bytes of the
    message in order, with zeros behind the last byte only, no other row changes, and
    one more message is accepted.  Otherwise no row changes and one more is rejected.
    With a length of 32 bits nothing that is computed on the way leaves its range. -/
theorem um9TxMessage_spec (s : TxStream) (cable : ℕ) (msg : List UInt8)
    (out : ℕ → EventPacket) (maxPackets : ℕ) :
    let r := um9TxMessage s cable msg out maxPackets
    (0 < r.2.1 ↔ cable ≤ um9MaxCable ∧ TxGrammar msg ∧ packetsNeeded msg ≤ maxPackets) ∧
      (0 < r.2.1 → r.2.1 = packetsNeeded msg ∧ 3 * r.2.1 ≤ msg.length + 2 ∧
        (List.range r.2.1).flatMap (fun i => (r.2.2 i).data) =
          msg ++ List.replicate (3 * r.2.1 - msg.length) 0 ∧
        (∀ i < r.2.1, (r.2.2 i).cable = cable) ∧ (∀ i ≥ r.2.1, r.2.2 i = out i) ∧
        r.1 = { s with stats := { s.stats with messages := s.stats.messages + 1 } }) ∧
      (r.2.1 = 0 → r.2.2 = out ∧
        r.1 = { s with stats := { s.stats with malformed := s.stats.malformed + 1 } }) ∧
      (msg.length < 2 ^ 32 → Checked.um9TxMessage s cable msg out maxPackets = .ok r) := by
  intro r
  have hr : r = txWrite s out maxPackets (txRows cable msg) := um9TxMessage_eq ..
  have hchecked : msg.length < 2 ^ 32 →
      Checked.um9TxMessage s cable msg out maxPackets = .ok r := fun h =>
    Checked.um9TxMessage_eq h ..
  rw [← and_assoc (a := cable ≤ um9MaxCable), ← txRows_isSome]
  cases hrows : txRows cable msg with
  | none =>
    rw [hrows, txWrite] at hr
    rw [hr] at hchecked ⊢
    refine ⟨by simp, fun h => absurd h (lt_irrefl 0), fun _ => ⟨rfl, rfl⟩, hchecked⟩
  | some ps =>
    obtain ⟨hlen, hthree, hdata⟩ := txRows_spec hrows
    have hpos := List.length_pos_of_ne_nil (txRows_ne_nil hrows)
    have hsome : ∃ qs, some ps = some qs := ⟨ps, rfl⟩
    rw [hrows, txWrite] at hr
    rw [and_iff_right hsome, ← hlen]
    by_cases hfits : ps.length ≤ maxPackets
    · rw [if_pos hfits] at hr
      rw [hr] at hchecked ⊢
      refine ⟨iff_of_true hpos hfits, fun _ => ⟨rfl, hthree, ?_, ?_, ?_, rfl⟩,
        fun h => absurd h hpos.ne', hchecked⟩
      · rw [← hdata]
        exact (List.flatMap_map ..).symm.trans
          (congrArg (List.flatMap EventPacket.data) (rows_rowsOver ps out))
      · intro i hi
        have hcable : cable < 16 := Nat.lt_succ_of_le (txRows_isSome.1 ⟨ps, hrows⟩).1
        simp only [rowsOver, List.getD_eq_getElem _ _ hi]
        exact txRows_cable hcable hrows _ (List.getElem_mem hi)
      · intro i hi
        exact List.getD_eq_default _ _ hi
    · rw [if_neg hfits] at hr
      rw [hr] at hchecked ⊢
      exact ⟨iff_of_false (lt_irrefl 0) hfits, fun h => absurd h (lt_irrefl 0),
        fun _ => ⟨rfl, rfl⟩, hchecked⟩

end Usbmidi9
