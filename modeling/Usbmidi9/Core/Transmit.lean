/-
  USBMIDI9 — the transmit encoder (`core/midi_stream.c`, transmit half).

  `um9TxMessage` writes the Event Packets of one message into the caller's rows,
  a memory `ℕ → EventPacket`; it returns the stream with its counters, the
  number of packets and the memory.  `txRows` lists the packets that a message
  has, and `um9TxMessage_eq` says that the function of the source writes exactly
  these rows when they fit and nothing otherwise.

  The length of a message is an `unsigned`; none of the source's sums leaves the
  range, so a message is a list of any length.
-/
import Usbmidi9.Core.Packets

namespace Usbmidi9

/-- `um9_tx_stats`. -/
structure TxStats where
  messages : UInt32
  malformed : UInt32
deriving DecidableEq, Repr, Inhabited

/-- `um9_tx_stream`. -/
structure TxStream where
  cable : ℕ
  stats : TxStats
deriving DecidableEq, Repr, Inhabited

/-- `um9_tx_init`. -/
def um9TxInit (cable : ℕ) : TxStream := ⟨if cable ≤ um9MaxCable then cable else 0, 0, 0⟩

/-- Count an accepted message. -/
def TxStream.accept (s : TxStream) : TxStream :=
  { s with stats := { s.stats with messages := s.stats.messages + 1 } }

/-- Count a rejected message. -/
def TxStream.reject (s : TxStream) : TxStream :=
  { s with stats := { s.stats with malformed := s.stats.malformed + 1 } }

/-- `um9_tx_end_cin`. -/
def um9TxEndCin (len : ℕ) : ℕ :=
  if len ≤ 1 then cinSysexEnd1 else if len = 2 then cinSysexEnd2 else cinSysexEnd3

/-- `um9_tx_packet_build`. -/
def um9TxPacketBuild (cable cin : ℕ) (data : List UInt8) (len : ℕ) : EventPacket :=
  .ofNibbles cable cin (data.take len)

/-- `um9_tx_sysex_packet_count`. -/
def um9TxSysexPacketCount (len : ℕ) : ℕ := 1 + (len - 3 + 2) / 3

/-- The loop `while (len - pos > 3)`; the list is `msg + pos`.  Returns what is
    left of it, with its position. -/
def txSysexMiddle (cable : ℕ) :
    ℕ → List UInt8 → (ℕ → EventPacket) → ℕ × List UInt8 × (ℕ → EventPacket)
  | pos, a :: b :: c :: d :: rest, out =>
    txSysexMiddle cable (pos + 3) (d :: rest) (Function.update out (1 + (pos - 3) / 3)
      (um9TxPacketBuild cable cinSysexStart (a :: b :: c :: d :: rest) 3))
  | pos, rest, out => (pos, rest, out)

/-- `um9_tx_message`. -/
def um9TxMessage (s : TxStream) (cable : ℕ) (msg : List UInt8) (out : ℕ → EventPacket)
    (maxPackets : ℕ) : TxStream × ℕ × (ℕ → EventPacket) :=
  let len := msg.length
  if cable > um9MaxCable ∨ len < 1 ∨ msg.getD 0 0 < 0x80 then (s.reject, 0, out)
  else if msg.getD 0 0 = 0xF0 then
    if len < 2 ∨ msg.getD (len - 1) 0 ≠ 0xF7 then (s.reject, 0, out)
    else if len ≤ 3 then
      if maxPackets < 1 then (s.reject, 0, out)
      else
        (s.accept, 1, Function.update out 0 (um9TxPacketBuild cable (um9TxEndCin len) msg len))
    else
      let needed := um9TxSysexPacketCount len
      if needed > maxPackets then (s.reject, 0, out)
      else
        let out := Function.update out 0 (um9TxPacketBuild cable cinSysexStart msg 3)
        let r := txSysexMiddle cable 3 (msg.drop 3) out
        (s.accept, needed, Function.update r.2.2 (needed - 1)
          (um9TxPacketBuild cable (um9TxEndCin (len - r.1)) r.2.1 (len - r.1)))
  else if msg.getD 0 0 = 0xF7 then
    if len ≠ 1 then (s.reject, 0, out)
    else if maxPackets < 1 then (s.reject, 0, out)
    else (s.accept, 1, Function.update out 0 (um9TxPacketBuild cable cinSysexEnd1 msg 1))
  else match um9PacketEncode cable msg with
    | none => (s.reject, 0, out)
    | some pkt =>
      if maxPackets < 1 then (s.reject, 0, out)
      else (s.accept, 1,
        Function.update out 0 (um9TxPacketBuild pkt.cable pkt.cin pkt.data pkt.length))

/-! ## The packets of a message -/

/-- The packets of a SysEx run: three bytes each, the last one to three in an
    end packet. -/
def txRun (cable : ℕ) : List UInt8 → List EventPacket
  | a :: b :: c :: d :: rest => .ofNibbles cable cinSysexStart [a, b, c] :: txRun cable (d :: rest)
  | last => [.ofNibbles cable (um9TxEndCin last.length) last]

/-- A complete SysEx run: F0 first, F7 last. -/
def IsRun (msg : List UInt8) : Prop :=
  msg.getD 0 0 = 0xF0 ∧ 2 ≤ msg.length ∧ msg.getD (msg.length - 1) 0 = 0xF7

instance (msg : List UInt8) : Decidable (IsRun msg) := inferInstanceAs (Decidable (_ ∧ _))

/-- The packets of a message on a cable, if it has an encoding. -/
def txRows (cable : ℕ) (msg : List UInt8) : Option (List EventPacket) :=
  if cable > um9MaxCable then none
  else if IsRun msg then some (txRun cable msg)
  else if msg = [0xF7] then some [.ofNibbles cable cinSysexEnd1 [0xF7]]
  else (um9PacketEncode cable msg).map fun pkt => [.ofNibbles pkt.cable pkt.cin msg]

/-- The caller's rows with `ps` written over the first ones. -/
def rowsOver (ps : List EventPacket) (out : ℕ → EventPacket) : ℕ → EventPacket :=
  fun i => ps.getD i (out i)

/-- What a message with the packets `ps` does to the caller's rows. -/
def txWrite (s : TxStream) (out : ℕ → EventPacket) (maxPackets : ℕ) :
    Option (List EventPacket) → TxStream × ℕ × (ℕ → EventPacket)
  | some ps => if ps.length ≤ maxPackets then (s.accept, ps.length, rowsOver ps out)
    else (s.reject, 0, out)
  | none => (s.reject, 0, out)

@[simp] theorem rowsOver_nil (out : ℕ → EventPacket) : rowsOver [] out = out := rfl

/-- Writing the next row. -/
theorem update_rowsOver (ps : List EventPacket) (out : ℕ → EventPacket) (p : EventPacket) :
    Function.update (rowsOver ps out) ps.length p = rowsOver (ps ++ [p]) out := by
  funext i
  rcases lt_trichotomy i ps.length with h | rfl | h
  · rw [Function.update_of_ne h.ne]
    simp only [rowsOver, List.getD_append _ _ _ _ h]
  · simp [rowsOver]
  · rw [Function.update_of_ne h.ne']
    simp only [rowsOver]
    rw [List.getD_eq_default _ _ h.le, List.getD_eq_default _ _ (by simp; omega)]

/-- Reading the written rows back. -/
theorem rows_rowsOver (ps : List EventPacket) (out : ℕ → EventPacket) :
    (List.range ps.length).map (rowsOver ps out) = ps := by
  apply List.ext_getElem (by simp)
  intro i h1 h2
  simp [rowsOver, h2]

/-- The lists that the tiling by threes takes in one piece. -/
theorem length_le_three {l : List UInt8} (h : ∀ a b c d rest, l = a :: b :: c :: d :: rest → False) :
    l.length ≤ 3 := by
  match l with
  | [] | [_] | [_, _] | [_, _, _] => simp
  | a :: b :: c :: d :: rest => exact absurd rfl (h a b c d rest)

theorem txRun_short {cable : ℕ} {run : List UInt8} (h : run.length ≤ 3) :
    txRun cable run = [.ofNibbles cable (um9TxEndCin run.length) run] := by
  match run, h with
  | [], _ | [_], _ | [_, _], _ | [_, _, _], _ => rfl

/-- `um9_tx_sysex_packet_count` counts the packets of a run. -/
theorem length_txRun (cable : ℕ) {run : List UInt8} (h : run ≠ []) :
    (txRun cable run).length = (run.length + 2) / 3 := by
  fun_induction txRun cable run with
  | case1 a b c d rest ih =>
    rw [List.length_cons, ih (by simp)]
    simp only [List.length_cons]
    omega
  | case2 last hs =>
    have h3 := length_le_three hs
    have h1 := List.length_pos_of_ne_nil h
    rw [List.length_singleton]
    omega

/-- The loop writes the middle packets behind the rows `pre` and stops before
    the end packet. -/
theorem txSysexMiddle_spec (cable : ℕ) {rest : List UInt8} (h0 : rest ≠ []) {pos : ℕ}
    {pre : List EventPacket} (hpre : pre ≠ []) (hpos : pos = 3 * pre.length)
    (out : ℕ → EventPacket) :
    ∃ mids last, txRun cable rest = mids ++ [.ofNibbles cable (um9TxEndCin last.length) last] ∧
      last.length + 3 * mids.length = rest.length ∧
      txSysexMiddle cable pos rest (rowsOver pre out) =
        (3 * (pre ++ mids).length, last, rowsOver (pre ++ mids) out) := by
  have hp := List.length_pos_of_ne_nil hpre
  fun_induction txRun cable rest generalizing pos pre with
  | case1 a b c d rest ih =>
    have hpos' : pos + 3 = 3 * (pre ++ [EventPacket.ofNibbles cable cinSysexStart [a, b, c]]).length := by
      simp only [List.length_append, List.length_singleton]; omega
    obtain ⟨mids, last, h1, h2, h3⟩ := ih (by simp) (by simp) hpos' (by simp)
    refine ⟨.ofNibbles cable cinSysexStart [a, b, c] :: mids, last, ?_, ?_, ?_⟩
    · rw [h1, List.cons_append]
    · simp only [List.length_cons] at h2 ⊢; omega
    · have hrow : 1 + (pos - 3) / 3 = pre.length := by omega
      rw [txSysexMiddle, hrow, um9TxPacketBuild, update_rowsOver]
      simp only [List.take_succ_cons, List.take_zero, List.append_assoc, List.cons_append,
        List.nil_append] at h3 ⊢
      exact h3
  | case2 last hs =>
    refine ⟨[], last, rfl, by simp, ?_⟩
    rw [List.append_nil, ← hpos]
    match last, length_le_three hs with
    | [], _ | [_], _ | [_, _], _ | [_, _, _], _ => rfl

/-- The SysEx branch of `um9_tx_message`, from the start packet on. -/
theorem txSysex_eq (cable : ℕ) (msg : List UInt8) (hlen : 3 < msg.length)
    (out : ℕ → EventPacket) :
    let r := txSysexMiddle cable 3 (msg.drop 3)
      (Function.update out 0 (um9TxPacketBuild cable cinSysexStart msg 3))
    Function.update r.2.2 (um9TxSysexPacketCount msg.length - 1)
        (um9TxPacketBuild cable (um9TxEndCin (msg.length - r.1)) r.2.1 (msg.length - r.1)) =
      rowsOver (txRun cable msg) out := by
  match msg, hlen with
  | a :: b :: c :: d :: rest, _ =>
    have h0 : Function.update out 0
        (um9TxPacketBuild cable cinSysexStart (a :: b :: c :: d :: rest) 3) =
          rowsOver [.ofNibbles cable cinSysexStart [a, b, c]] out := update_rowsOver [] out _
    have hpos : 3 = 3 * [EventPacket.ofNibbles cable cinSysexStart [a, b, c]].length := rfl
    obtain ⟨mids, last, h1, h2, h3⟩ :=
      txSysexMiddle_spec cable (List.cons_ne_nil d rest) (by simp) hpos out
    have hcount := length_txRun cable (List.cons_ne_nil d rest)
    rw [h1, List.length_append, List.length_singleton, List.length_cons] at hcount
    rw [List.length_cons] at h2
    have hrow : um9TxSysexPacketCount (rest.length + 1 + 1 + 1 + 1) - 1 =
        ([EventPacket.ofNibbles cable cinSysexStart [a, b, c]] ++ mids).length := by
      simp only [um9TxSysexPacketCount, List.length_append, List.length_singleton]; omega
    have hend : rest.length + 1 + 1 + 1 + 1 -
        3 * ([EventPacket.ofNibbles cable cinSysexStart [a, b, c]] ++ mids).length = last.length := by
      simp only [List.length_append, List.length_singleton]; omega
    intro r
    have hr : r = _ := (congrArg _ h0).trans h3
    simp only [List.length_cons, hr, hrow, hend, um9TxPacketBuild, List.take_length]
    rw [update_rowsOver, txRun, h1]
    simp only [List.cons_append, List.nil_append]

/-! ## The function of the source -/

/-- The row of a message that `um9_packet_encode` accepts holds its bytes. -/
theorem um9PacketEncode_build {cable : ℕ} {msg : List UInt8} {pkt : Um9Packet}
    (h : um9PacketEncode cable msg = some pkt) :
    um9TxPacketBuild pkt.cable pkt.cin pkt.data pkt.length = .ofNibbles pkt.cable pkt.cin msg := by
  obtain ⟨-, h1, h3, cin, -, rfl⟩ := um9PacketEncode_eq_some.1 h
  match msg, h1, h3 with
  | [_], _, _ | [_, _], _, _ | [_, _, _], _, _ => rfl

theorem txWrite_one (s : TxStream) (out : ℕ → EventPacket) (maxPackets : ℕ) (p : EventPacket) :
    txWrite s out maxPackets (some [p]) =
      if maxPackets < 1 then (s.reject, 0, out) else (s.accept, 1, Function.update out 0 p) := by
  have h := update_rowsOver [] out p
  simp only [rowsOver_nil, List.length_nil, List.nil_append] at h
  simp only [txWrite, List.length_singleton, h]
  split_ifs <;> first | rfl | omega

theorem um9PacketEncode_none {cable : ℕ} {msg : List UInt8}
    (h : um9CinForStatus (msg.getD 0 0).toNat = none) : um9PacketEncode cable msg = none := by
  rw [Option.eq_none_iff_forall_ne_some]
  intro pkt hp
  obtain ⟨-, -, -, cin, hc, -⟩ := um9PacketEncode_eq_some.1 hp
  rw [h] at hc
  exact absurd hc (by simp)

/-- A byte that starts no message: a data byte, or a SysEx byte outside a run. -/
theorem txRows_none {cable : ℕ} {msg : List UInt8} (hrun : ¬IsRun msg) (heox : msg ≠ [0xF7])
    (h : um9CinForStatus (msg.getD 0 0).toNat = none) : txRows cable msg = none := by
  rw [txRows, if_neg hrun, if_neg heox, um9PacketEncode_none h, Option.map_none, ite_self]

/-- **What `um9_tx_message` does.**  It writes the message's packets over the
    first rows when it has an encoding that fits, and nothing otherwise. -/
theorem um9TxMessage_eq (s : TxStream) (cable : ℕ) (msg : List UInt8)
    (out : ℕ → EventPacket) (maxPackets : ℕ) :
    um9TxMessage s cable msg out maxPackets = txWrite s out maxPackets (txRows cable msg) := by
  by_cases hc : cable > um9MaxCable
  · simp only [um9TxMessage, txRows, hc, true_or, if_true, txWrite]
  by_cases hrun : IsRun msg
  · obtain ⟨h0, h2, h7⟩ := hrun
    have hok : ¬(cable > um9MaxCable ∨ msg.length < 1 ∨ msg.getD 0 0 < 0x80) := by
      rw [h0]; simp only [hc, false_or, not_or]; exact ⟨by omega, by decide⟩
    have hlast : ¬(msg.length < 2 ∨ msg.getD (msg.length - 1) 0 ≠ 0xF7) := by
      rw [h7]; simp only [ne_eq, not_true_eq_false, or_false]; omega
    simp only [um9TxMessage, txRows, if_neg hok, if_neg hc, if_pos h0, if_neg hlast,
      if_pos (show IsRun msg from ⟨h0, h2, h7⟩)]
    by_cases hs : msg.length ≤ 3
    · rw [if_pos hs, txRun_short hs, txWrite_one, um9TxPacketBuild, List.take_length]
    · have hn : (txRun cable msg).length = um9TxSysexPacketCount msg.length := by
        rw [length_txRun cable (List.ne_nil_of_length_pos (by omega)), um9TxSysexPacketCount]
        omega
      rw [if_neg hs, txWrite, hn]
      have hw := txSysex_eq cable msg (by omega) out
      simp only at hw
      rw [hw]
      split_ifs <;> first | rfl | omega
  by_cases hlow : msg.length < 1 ∨ msg.getD 0 0 < 0x80
  · have hnone : um9CinForStatus (msg.getD 0 0).toNat = none := by
      have hlt : (msg.getD 0 0).toNat < 0x80 := by
        rcases hlow with h | h
        · rw [List.length_eq_zero_iff.1 (Nat.lt_one_iff.1 h)]; decide
        · exact h
      rw [um9CinForStatus, if_neg (by omega), if_neg (by omega), if_neg (by omega),
        if_neg (by omega)]
    have heox : msg ≠ [0xF7] := by rintro rfl; revert hlow; decide
    rw [txRows_none hrun heox hnone, um9TxMessage, if_pos (Or.inr hlow), txWrite]
  have hok : ¬(cable > um9MaxCable ∨ msg.length < 1 ∨ msg.getD 0 0 < 0x80) := not_or.2 ⟨hc, hlow⟩
  simp only [um9TxMessage, if_neg hok]
  by_cases h0 : msg.getD 0 0 = 0xF0
  · have hbad : msg.length < 2 ∨ msg.getD (msg.length - 1) 0 ≠ 0xF7 := by
      by_contra hn
      obtain ⟨h2, h7⟩ := not_or.1 hn
      exact hrun ⟨h0, by omega, not_not.1 h7⟩
    have heox : msg ≠ [0xF7] := by rintro rfl; revert h0; decide
    rw [if_pos h0, if_pos hbad, txRows_none hrun heox (by rw [h0]; rfl), txWrite]
  rw [if_neg h0]
  by_cases h7 : msg.getD 0 0 = 0xF7
  · rw [if_pos h7]
    by_cases h1 : msg.length = 1
    · obtain ⟨x, rfl⟩ := List.length_eq_one_iff.1 h1
      obtain rfl : x = 0xF7 := h7
      rw [txRows, if_neg hc, if_neg hrun, if_pos rfl, txWrite_one, if_neg (by simp)]
      rfl
    · have heox : msg ≠ [0xF7] := fun h => h1 (by rw [h]; rfl)
      rw [if_pos h1, txRows_none hrun heox (by rw [h7]; rfl), txWrite]
  · have heox : msg ≠ [0xF7] := fun h => h7 (by rw [h]; rfl)
    rw [if_neg h7, txRows, if_neg hc, if_neg hrun, if_neg heox]
    rcases hp : um9PacketEncode cable msg with _ | pkt
    · rfl
    · rw [Option.map_some, txWrite_one, ← um9PacketEncode_build hp]

/-- A call of `um9_tx_message` accepted the message on the cable and wrote the
    packets. -/
def Encodes (cable : ℕ) (msg : List UInt8) (ps : List EventPacket) : Prop :=
  ∃ s out maxPackets s' out', um9TxMessage s cable msg out maxPackets = (s', ps.length, out') ∧
    ps ≠ [] ∧ (List.range ps.length).map out' = ps

theorem txRun_ne_nil (cable : ℕ) (run : List UInt8) : txRun cable run ≠ [] := by
  unfold txRun; split <;> simp

theorem txRows_ne_nil {cable : ℕ} {msg : List UInt8} {ps : List EventPacket}
    (h : txRows cable msg = some ps) : ps ≠ [] := by
  unfold txRows at h
  split_ifs at h
  · exact Option.some.inj h ▸ txRun_ne_nil cable msg
  · exact Option.some.inj h ▸ List.cons_ne_nil _ _
  · obtain ⟨pkt, -, rfl⟩ := Option.map_eq_some_iff.1 h
    exact List.cons_ne_nil _ _

theorem txRun_cable {cable : ℕ} (hc : cable < 16) (run : List UInt8) :
    ∀ p ∈ txRun cable run, p.cable = cable := by
  fun_induction txRun cable run with
  | case1 a b c d rest ih => exact List.forall_mem_cons.2 ⟨EventPacket.cable_ofNibbles hc _ _, ih⟩
  | case2 last => exact List.forall_mem_singleton.2 (EventPacket.cable_ofNibbles hc _ _)

theorem txRows_cable {cable : ℕ} (hc : cable < 16) {msg : List UInt8} {ps : List EventPacket}
    (h : txRows cable msg = some ps) : ∀ p ∈ ps, p.cable = cable := by
  unfold txRows at h
  split_ifs at h
  · exact Option.some.inj h ▸ txRun_cable hc msg
  · exact Option.some.inj h ▸ List.forall_mem_singleton.2 (EventPacket.cable_ofNibbles hc _ _)
  · obtain ⟨pkt, hp, rfl⟩ := Option.map_eq_some_iff.1 h
    obtain ⟨-, -, -, cin, -, rfl⟩ := um9PacketEncode_eq_some.1 hp
    exact List.forall_mem_singleton.2 (EventPacket.cable_ofNibbles hc _ _)

/-- **The packets of an accepted message do not depend on the call**, and every
    message that has packets is accepted when there is room for them. -/
theorem encodes_iff {cable : ℕ} {msg : List UInt8} {ps : List EventPacket} :
    Encodes cable msg ps ↔ txRows cable msg = some ps := by
  constructor
  · rintro ⟨s, out, maxPackets, s', out', h, hne, hps⟩
    have hpos := List.length_pos_of_ne_nil hne
    rw [um9TxMessage_eq] at h
    rcases hr : txRows cable msg with _ | qs
    · simp only [hr, txWrite, Prod.mk.injEq] at h
      omega
    · simp only [hr, txWrite] at h
      split_ifs at h <;> simp only [Prod.mk.injEq] at h
      · obtain ⟨-, hlen, rfl⟩ := h
        rw [← hps, ← hlen, rows_rowsOver]
      · omega
  · intro h
    refine ⟨default, default, ps.length, TxStream.accept default, rowsOver ps default, ?_,
      txRows_ne_nil h, rows_rowsOver ps default⟩
    rw [um9TxMessage_eq, h, txWrite, if_pos le_rfl]

end Usbmidi9
