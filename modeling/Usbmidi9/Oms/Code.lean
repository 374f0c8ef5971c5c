/-
  USBMIDI9 — the send hook, statement by statement (`oms/oms_tx.c`).

  The hook once more, over the arrays it works with: the packet's data, the port's carry and
  the local carry are cells (`TxAccess`), and every element that is touched is logged, as
  is every call of `oms_tx_emit`.  A cell behind its array has a value too, as has the
  local carry before it is written: what lies there is a parameter.

  `omsTxSend_code` says that the hook of `Usbmidi9.Oms.Tx` is this one, unless it is given a
  complete SysEx that claims more bytes than its packet has (`Overlong`).
-/
import Usbmidi9.Lib.Logged
import Usbmidi9.Oms.Tx

namespace Usbmidi9

open Logged (cells cells_add cells_congr cells_succ readCell readCells copyCells tell)

/-! ## Accesses and packets -/

/-- `pkt->data[i]`, `port->txCarry[i]` and `carry[i]`. -/
inductive TxAccess where
  | data (i : ℕ)
  | txCarry (i : ℕ)
  | carry (i : ℕ)
deriving DecidableEq, Repr

/-- The sizes of the arrays are 4, 3 and 6. -/
def TxAccess.InBounds : TxAccess → Prop
  | .data i => i < 4
  | .txCarry i => i < 3
  | .carry i => i < 6

instance : DecidablePred TxAccess.InBounds
  | .data _ | .txCarry _ | .carry _ => Nat.decLt ..

/-- A call of `oms_tx_emit`: the CIN, the number of bytes and those that it reads. -/
structure TxEmit where
  cin : ℕ
  len : ℕ
  data : List UInt8
deriving DecidableEq, Repr

/-- The packet that it hands to the transport. -/
def TxEmit.packet (cable : ℕ) (e : TxEmit) : EventPacket := omsTxPacket cable e.cin e.data e.len

theorem TxEmit.packet_take (cable cin len : ℕ) (data : List UInt8) :
    TxEmit.packet cable ⟨cin, len, data.take len⟩ = omsTxPacket cable cin data len := by
  simp only [packet, omsTxPacket, List.take_take, min_self]

/-- What the hook does with its arrays. -/
inductive TxOp where
  | access (a : TxAccess)
  | emit (e : TxEmit)
deriving DecidableEq, Repr

def TxOp.access? : TxOp → Option TxAccess
  | .access a => some a
  | .emit _ => none

def TxOp.emit? : TxOp → Option TxEmit
  | .access _ => none
  | .emit e => some e

/-- The calls of `oms_tx_emit` in a log, and the elements that are touched. -/
def emitted (log : List TxOp) : List TxEmit := log.filterMap TxOp.emit?
def touched (log : List TxOp) : List TxAccess := log.filterMap TxOp.access?

/-! ## The code -/

/-- A part of the hook. -/
abbrev TxCode : Type → Type := Logged (TxAccess → UInt8) TxOp

/-- Read an element, read `n` of them and copy `n` of them. -/
def txRead (a : TxAccess) : TxCode UInt8 := readCell .access a
def txReads (cell : ℕ → TxAccess) (n : ℕ) : TxCode (List UInt8) := readCells .access cell n
def txCopy (src dst : ℕ → TxAccess) (n : ℕ) : TxCode Unit := copyCells .access src dst n

/-- `oms_tx_emit` of `len` bytes from a cell on. -/
def omsTxEmitCode (cin : ℕ) (cell : ℕ → TxAccess) (len : ℕ) : TxCode Unit := do
  let data ← txReads cell (min 3 len)
  tell (.emit ⟨cin, len, data⟩)

/-- The loop `while (carryLen - pos > 3)` and the end packet; the second number is
    `carryLen - pos`. -/
def omsTxFlushCode : ℕ → ℕ → TxCode Unit
  | pos, n + 4 => do
    omsTxEmitCode cinSysexStart (.carry <| pos + ·) 3
    omsTxFlushCode (pos + 3) (n + 1)
  | pos, n => omsTxEmitCode (omsTxEndCin n) (.carry <| pos + ·) n

/-- The loop `while (carryLen - pos >= 3)`; it ends with `pos` and `carryLen - pos`. -/
def omsTxMiddleCode : ℕ → ℕ → TxCode (ℕ × ℕ)
  | pos, n + 3 => do
    omsTxEmitCode cinSysexStart (.carry <| pos + ·) 3
    omsTxMiddleCode (pos + 3) n
  | pos, n => return (pos, n)

/-- `oms_tx_sysex_chunk` from the carry's copy on; it ends with `port->txCarryLen`. -/
def omsTxAppendCode (txCarryLen mode len : ℕ) : TxCode ℕ := do
  txCopy .txCarry .carry txCarryLen
  txCopy .data (.carry <| txCarryLen + ·) len
  if mode = kTxEnd ∨ mode = kTxWhole then
    omsTxFlushCode 0 (txCarryLen + len)
    return 0
  else
    let r ← omsTxMiddleCode 0 (txCarryLen + len)
    txCopy (.carry <| r.1 + ·) .txCarry r.2
    return r.2

/-- What a start does with `port->txCarryLen`, and how often it counts as malformed. -/
def omsTxStartCode (txCarryLen mode len : ℕ) : TxCode (ℕ × UInt32) :=
  if mode = kTxStart ∨ mode = kTxWhole then
    if txCarryLen ≠ 0 ∨ len = 0 then return (0, 1)
    else do
      let b ← txRead (.data 0)
      return if b ≠ 0xF0 then (0, 1) else (txCarryLen, 0)
  else return (txCarryLen, 0)

/-- `mode == kTxWhole && (len < 2u || data[len - 1u] != 0xF7u)`. -/
def omsTxUnterminatedCode (mode len : ℕ) : TxCode Bool :=
  if mode = kTxWhole then
    if len < 2 then return true
    else do
      let b ← txRead (.data (len - 1))
      return b ≠ 0xF7
  else return false

/-- `oms_tx_sysex_chunk`; it ends with `port->txCarryLen`. -/
def omsTxSysexChunkCode (txCarryLen mode len : ℕ) : TxCode (ℕ × UInt32) := do
  let r ← omsTxStartCode txCarryLen mode len
  if ← omsTxUnterminatedCode mode len then return (r.1, r.2 + 1)
  else if len = 0 ∨ 4 < len then return (r.1, r.2 + 1)
  else if 6 < r.1 + len then return (0, r.2 + 1)
  else
    let n ← omsTxAppendCode r.1 mode len
    return (n, r.2)

/-- The branch of `oms_tx_send` for a conventional message; `um9_tx_message` gets the bytes
    that it may read. -/
def omsTxMessageCode (tx : TxStream) (cable len : ℕ) : TxCode (TxStream × UInt32) :=
  if len < 1 ∨ 3 < len then return (tx, 1)
  else do
    let msg ← txReads .data len
    let r := um9TxMessage tx cable msg (fun _ => default) 2
    if r.2.1 ≠ 1 then return (r.1, 1)
    else
      let row := r.2.2 0
      tell (.emit ⟨row.cin, len, [row.b1, row.b2, row.b3].take len⟩)
      return (r.1, 0)

/-- `pkt->len >= 1u && pkt->data[0] == 0xF0u`. -/
def omsTxWholeCode (len : ℕ) : TxCode Bool :=
  if 1 ≤ len then do
    let b ← txRead (.data 0)
    return b = 0xF0
  else return false

/-- What a call leaves in its port, and how often it counts as malformed. -/
structure TxLeft where
  txCarryLen : ℕ
  tx : TxStream
  malformed : UInt32

/-- `oms_tx_send` from the continuation state on. -/
def omsTxPortCode (port : OmsPort) (cable : ℕ) (flags len : UInt8) : TxCode TxLeft := do
  let cont := flags &&& omsContMask
  if cont = omsNoCont then
    if ← omsTxWholeCode len.toNat then
      let r ← omsTxSysexChunkCode port.txCarryLen kTxWhole len.toNat
      return ⟨r.1, port.tx, r.2⟩
    else
      let r ← omsTxMessageCode port.tx cable len.toNat
      return ⟨port.txCarryLen, r.1, r.2⟩
  else
    let r ← omsTxSysexChunkCode port.txCarryLen cont.toNat len.toNat
    return ⟨r.1, port.tx, r.2⟩

/-- The arrays of a call, with what lies behind them and what the local carry has in it. -/
def omsTxMemory (port : OmsPort) (data : List UInt8) (beyond : TxAccess → UInt8) :
    TxAccess → UInt8
  | .data i => data.getD i (beyond (.data i))
  | .txCarry i => port.txCarry.getD i (beyond (.txCarry i))
  | .carry i => beyond (.carry i)

/-- The port that is left. -/
def OmsPort.after (port : OmsPort) (r : Ran (TxAccess → UInt8) TxOp TxLeft) : OmsPort :=
  { port with
    tx := r.value.tx
    txCarry := cells r.state .txCarry 3
    txCarryLen := r.value.txCarryLen }

/-- `oms_tx_send` through the default transport, with what it does. -/
def omsTxSendCode (s : Oms) (pkt : Option OmsMidiPacket) (beyond : TxAccess → UInt8)
    (refCon : ℕ) : Oms × List TxOp :=
  match pkt with
  | none => (s.malformed, [])
  | some pkt =>
    let ifaceNo := (refCon >>> 8) &&& 0xFF
    let cable := refCon &&& 0xFF
    if ifaceNo < 1 ∨ omsMaxInterfaces < ifaceNo ∨ omsCables ≤ cable then (s.malformed, [])
    else
      let port := s.port (ifaceNo - 1) cable
      let r := omsTxPortCode port cable pkt.flags pkt.len (omsTxMemory port pkt.data beyond)
      let s := (s.setPort (ifaceNo - 1) cable (port.after r)).upd fun g =>
        { g with txMalformed := g.txMalformed + r.value.malformed }
      (omsTxEmit s ((ifaceNo <<< 8) ||| cable)
        ((emitted r.log).map (TxEmit.packet cable)), r.log)

/-! ## What the parts compute -/

section
variable (m : TxAccess → UInt8) (cable pos n : ℕ)

theorem emitted_append (l l' : List TxOp) : emitted (l ++ l') = emitted l ++ emitted l' :=
  List.filterMap_append ..

theorem emitted_accesses {α : Type} (f : α → TxAccess) (l : List α) :
    emitted (l.map fun x => .access (f x)) = [] := by
  rw [emitted, List.filterMap_map]
  exact List.filterMap_eq_nil_iff.2 fun _ _ => rfl

theorem cells_three : cells m (.carry <| pos + ·) (n + 3) =
    m (.carry pos) :: m (.carry (pos + 1)) :: m (.carry (pos + 2)) ::
      cells m (.carry <| pos + 3 + ·) n := by
  have hshift : cells m (fun i => .carry (pos + (i + 1 + 1 + 1))) n =
      cells m (.carry <| pos + 3 + ·) n :=
    cells_congr fun i _ => congrArg (fun k => m (.carry k)) (by omega)
  rw [cells_succ, cells_succ, cells_succ, hshift]
  rfl

@[simp] theorem txReads_apply (cell : ℕ → TxAccess) :
    txReads cell n m = ⟨cells m cell n, m, (List.range n).map (.access <| cell ·)⟩ :=
  Logged.readCells_apply ..

/-- A packet from the local carry. -/
theorem omsTxEmitCode_apply (cin : ℕ) (cell : ℕ → TxAccess) (len : ℕ) :
    (omsTxEmitCode cin cell len m).state = m ∧
      emitted (omsTxEmitCode cin cell len m).log =
        [⟨cin, len, cells m cell (min 3 len)⟩] := by
  refine ⟨by simp [omsTxEmitCode], ?_⟩
  simp only [omsTxEmitCode, Logged.bind_apply, txReads_apply, Logged.tell_apply,
    emitted_append, emitted_accesses]
  rfl

/-- The loop and the end packet on what the local carry holds. -/
theorem omsTxFlushCode_apply :
    (omsTxFlushCode pos n m).state = m ∧
      (emitted (omsTxFlushCode pos n m).log).map (TxEmit.packet cable) =
        omsTxFlush cable (cells m (.carry <| pos + ·) n) := by
  fun_induction omsTxFlushCode pos n with
  | case1 pos n ih =>
    obtain ⟨hstate, hlog⟩ := ih
    obtain ⟨hstate₁, hlog₁⟩ := omsTxEmitCode_apply m cinSysexStart (.carry <| pos + ·) 3
    simp only [Logged.bind_apply, hstate₁, emitted_append, hlog₁, List.map_append, hstate, hlog,
      true_and]
    rw [cells_three m pos (n + 1), cells_succ, omsTxFlush]
    rfl
  | case2 pos n hs =>
    obtain ⟨hstate, hlog⟩ := omsTxEmitCode_apply m (omsTxEndCin n) (.carry <| pos + ·) n
    refine ⟨hstate, ?_⟩
    rw [hlog]
    match n with
    | 0 | 1 | 2 | 3 => rfl
    | n + 4 => exact absurd rfl (hs n)

/-- The loop on what the local carry holds, and what it leaves. -/
theorem omsTxMiddleCode_apply :
    let x := omsTxMiddleCode pos n m
    let r := omsTxMiddle cable (cells m (.carry <| pos + ·) n)
    x.state = m ∧ (emitted x.log).map (TxEmit.packet cable) = r.1 ∧
      cells m (.carry <| x.value.1 + ·) x.value.2 = r.2 := by
  fun_induction omsTxMiddleCode pos n with
  | case1 pos n ih =>
    obtain ⟨hstate, hlog, hvalue⟩ := ih
    obtain ⟨hstate₁, hlog₁⟩ := omsTxEmitCode_apply m cinSysexStart (.carry <| pos + ·) 3
    simp only [Logged.bind_apply, hstate₁, emitted_append, hlog₁, List.map_append, hstate, hlog,
      hvalue, cells_three, omsTxMiddle]
    exact ⟨trivial, rfl, trivial⟩
  | case2 pos n hs =>
    match n with
    | 0 | 1 | 2 => exact ⟨rfl, rfl, rfl⟩
    | n + 3 => exact absurd rfl (hs n)

/-- A copy emits nothing. -/
theorem emitted_txCopy (src dst : ℕ → TxAccess) :
    emitted (txCopy src dst n m).log = [] := by
  have hreads : (txCopy src dst n).Does (fun op => op.emit? = none) fun _ => True :=
    .copyCells (fun _ _ => rfl) fun _ _ => rfl
  exact List.filterMap_eq_nil_iff.2 (hreads m).1

/-- What a copy to the port's carry makes of it. -/
theorem cells_txCopy_txCarry {k : ℕ} (hk : k ≤ 3) :
    cells (txCopy (.carry <| pos + ·) .txCarry k m).state .txCarry 3 =
      cells m (.carry <| pos + ·) k ++ (cells m .txCarry 3).drop k := by
  obtain ⟨j, hj⟩ := Nat.exists_eq_add_of_le hk
  rw [hj, cells_add, Logged.drop_cells]
  congr 1
  · exact Logged.cells_copyCells (fun _ _ => TxAccess.txCarry.inj) (fun _ _ => by simp) k m
  · refine cells_congr fun i _ => Logged.copyCells_outside fun l hl hil => ?_
    have hsame := TxAccess.txCarry.inj hil
    omega

end

section
variable {p : OmsPort} {m : TxAccess → UInt8} {len : ℕ}

/-- The carry and the chunk in the local carry. -/
theorem omsTxAppendCode_apply (hcarry : p.txCarry = cells m .txCarry 3)
    (hshort : p.txCarryLen ≤ 3) (hlen : len ≤ 4) (cable mode : ℕ) (malformed : UInt32) :
    let x := omsTxAppendCode p.txCarryLen mode len m
    omsTxAppend p cable mode (cells m .data 4) len malformed =
      some ⟨{ p with txCarry := cells x.state .txCarry 3, txCarryLen := x.value },
        (emitted x.log).map (TxEmit.packet cable), malformed⟩ := by
  have hold : readArray p.txCarry p.txCarryLen = some (cells m .txCarry p.txCarryLen) := by
    rw [readArray, hcarry, Logged.length_cells, if_pos hshort, Logged.take_cells hshort]
  have hnew : readArray (cells m .data 4) len = some (cells m .data len) := by
    rw [readArray, Logged.length_cells, if_pos hlen, Logged.take_cells hlen]
  intro x
  generalize hm₁ : (txCopy .txCarry .carry p.txCarryLen m).state = m₁
  generalize hm₂ : (txCopy .data (.carry <| p.txCarryLen + ·) len m₁).state = m₂
  have hall : cells m₂ (.carry <| 0 + ·) (p.txCarryLen + len) =
      cells m .txCarry p.txCarryLen ++ cells m .data len := by
    have hfirst : cells m₂ .carry p.txCarryLen = cells m₁ .carry p.txCarryLen := by
      refine cells_congr fun i hi => ?_
      rw [← hm₂]
      refine Logged.copyCells_outside fun j _ hij => ?_
      obtain rfl := TxAccess.carry.inj hij
      omega
    have hsecond : cells m₂ (.carry <| p.txCarryLen + ·) len = cells m₁ .data len := by
      rw [← hm₂]
      refine Logged.cells_copyCells (fun i j hij => ?_) (fun _ _ => by simp) len m₁
      exact Nat.add_left_cancel (TxAccess.carry.inj hij)
    have hold₁ : cells m₁ .carry p.txCarryLen = cells m .txCarry p.txCarryLen := by
      rw [← hm₁]
      exact Logged.cells_copyCells (fun _ _ => TxAccess.carry.inj) (fun _ _ => by simp) _ m
    have hnew₁ : cells m₁ .data len = cells m .data len := by
      rw [← hm₁]
      exact cells_congr fun i _ => Logged.copyCells_outside fun _ _ => by simp
    rw [cells_add, ← hold₁, ← hnew₁, ← hfirst, ← hsecond]
    simp only [Nat.zero_add]
  have hkept : cells m₂ .txCarry 3 = p.txCarry := by
    rw [hcarry, ← hm₂, ← hm₁]
    refine cells_congr fun i _ => ?_
    exact (Logged.copyCells_outside fun _ _ => by simp).trans
      (Logged.copyCells_outside fun _ _ => by simp)
  simp only [omsTxAppend, hold, hnew, ← hall]
  unfold x omsTxAppendCode
  simp only [Logged.bind_apply, hm₁, hm₂, emitted_append, emitted_txCopy, List.nil_append]
  split_ifs with hend
  · obtain ⟨hstate, hlog⟩ := omsTxFlushCode_apply m₂ cable 0 (p.txCarryLen + len)
    simp only [Logged.bind_apply, Logged.pure_apply, hstate, emitted_append, List.map_append, hlog,
      hkept]
    simp only [emitted, List.filterMap_nil, List.map_nil, List.append_nil]
  · obtain ⟨hstate, hlog, hrest⟩ := omsTxMiddleCode_apply m₂ cable 0 (p.txCarryLen + len)
    simp only [Logged.bind_apply, Logged.pure_apply, hstate, emitted_append, List.map_append, hlog,
      emitted_txCopy]
    have hlen : (omsTxMiddleCode 0 (p.txCarryLen + len) m₂).value.2 =
        (omsTxMiddle cable (cells m₂ (.carry <| 0 + ·) (p.txCarryLen + len))).2.length := by
      rw [← hrest, Logged.length_cells]
    have htwo := omsTxMiddle_lt cable (cells m₂ (.carry <| 0 + ·) (p.txCarryLen + len))
    rw [← hlen] at htwo
    rw [← hrest, ← hkept, Logged.length_cells, cells_txCopy_txCarry _ _ (htwo.trans (by decide))]
    simp only [emitted, List.filterMap_nil, List.map_nil, List.append_nil]

theorem omsTxStartCode_apply (p : OmsPort) (m : TxAccess → UInt8) (mode len : ℕ) :
    let x := omsTxStartCode p.txCarryLen mode len m
    let r := p.begun mode (cells m .data 4) len
    x.state = m ∧ emitted x.log = [] ∧ x.value = (r.1.txCarryLen, r.2) := by
  have hfirst : (cells m .data 4).getD 0 0 = m (.data 0) :=
    Logged.getD_cells m .data (by decide) 0
  unfold omsTxStartCode OmsPort.begun
  rw [hfirst]
  by_cases hstart : mode = kTxStart ∨ mode = kTxWhole
  swap
  · rw [if_neg hstart, if_neg fun h => hstart h.1]
    exact ⟨rfl, rfl, rfl⟩
  rw [if_pos hstart]
  by_cases hbad : p.txCarryLen ≠ 0 ∨ len = 0
  · rw [if_pos hbad, if_pos ⟨hstart, hbad.imp_right .inl⟩]
    exact ⟨rfl, rfl, rfl⟩
  · obtain ⟨hzero, hlen⟩ := not_or.1 hbad
    rw [if_neg hbad]
    refine ⟨rfl, rfl, ?_⟩
    show (if m (.data 0) ≠ 0xF0 then (0, 1) else (p.txCarryLen, 0)) = _
    by_cases h0 : m (.data 0) ≠ 0xF0
    · rw [if_pos h0, if_pos ⟨hstart, .inr (.inr h0)⟩]
    · rw [if_neg h0, if_neg fun h => h.2.elim hzero fun h => h.elim hlen h0]

theorem omsTxUnterminatedCode_apply (m : TxAccess → UInt8) {mode len : ℕ}
    (hlen : mode = kTxWhole → len ≤ 4) :
    let x := omsTxUnterminatedCode mode len m
    x.state = m ∧ emitted x.log = [] ∧
      x.value =
        decide (mode = kTxWhole ∧ (len < 2 ∨ (cells m .data 4).getD (len - 1) 0 ≠ 0xF7)) := by
  unfold omsTxUnterminatedCode
  by_cases hw : mode = kTxWhole
  swap
  · rw [if_neg hw]
    exact ⟨rfl, rfl, (decide_eq_false fun h => hw h.1).symm⟩
  rw [if_pos hw]
  by_cases h2 : len < 2
  · rw [if_pos h2]
    exact ⟨rfl, rfl, (decide_eq_true ⟨hw, .inl h2⟩).symm⟩
  · have h4 := hlen hw
    rw [if_neg h2, Logged.getD_cells m .data (by omega)]
    refine ⟨rfl, rfl, ?_⟩
    show decide (m (.data (len - 1)) ≠ 0xF7) = _
    simp only [hw, h2, true_and, false_or]

/-- A start leaves the port's other fields alone. -/
theorem OmsPort.begun_eq (p : OmsPort) (mode : ℕ) (data : List UInt8) (len : ℕ) :
    (p.begun mode data len).1 = { p with txCarryLen := (p.begun mode data len).1.txCarryLen } ∧
      (p.begun mode data len).1.txCarryLen ≤ p.txCarryLen := by
  unfold begun
  split_ifs
  · exact ⟨rfl, Nat.zero_le _⟩
  · exact ⟨rfl, le_rfl⟩

/-- **A chunk** of the code is one of the model, unless it is read behind its data. -/
theorem omsTxSysexChunkCode_apply (hcarry : p.txCarry = cells m .txCarry 3)
    (hshort : p.txCarryLen ≤ 3) (cable : ℕ) {mode : ℕ} (hlen : mode = kTxWhole → len ≤ 4) :
    let x := omsTxSysexChunkCode p.txCarryLen mode len m
    omsTxSysexChunk p cable mode (cells m .data 4) len =
      some ⟨{ p with txCarry := cells x.state .txCarry 3, txCarryLen := x.value.1 },
        (emitted x.log).map (TxEmit.packet cable), x.value.2⟩ := by
  obtain ⟨hstate, hlog, hvalue⟩ := omsTxStartCode_apply p m mode len
  obtain ⟨hstate', hlog', hvalue'⟩ := omsTxUnterminatedCode_apply m hlen
  rw [omsTxSysexChunk_branch p cable mode _ len (by rw [Logged.length_cells]; exact hlen)]
  intro x
  unfold x omsTxSysexChunkCode omsTxSysexChunkBranch
  simp only [Logged.bind_apply, hstate, hlog, hvalue, hstate', hlog', hvalue', emitted_append,
    decide_eq_true_eq, List.nil_append]
  obtain ⟨hport, hless⟩ := p.begun_eq mode (cells m .data 4) len
  generalize p.begun mode (cells m .data 4) len = q at *
  obtain ⟨q, count⟩ := q
  simp only at hport hless ⊢
  have hsame : q.txCarry = p.txCarry := by rw [hport]
  split_ifs with hterm hbad hfull
  · rw [hport, hcarry]
    rfl
  · rw [hport, hcarry]
    rfl
  · rw [hport, hcarry]
    rfl
  · rw [omsTxAppendCode_apply (hsame.trans hcarry) (hless.trans hshort) (by omega) cable mode count]
    simp only [Logged.bind_apply, Logged.pure_apply, List.append_nil]
    rw [hport]

/-- **A conventional message** of the code is one of the model. -/
theorem omsTxMessageCode_apply (tx : TxStream) (cable len : ℕ) (m : TxAccess → UInt8) :
    let x := omsTxMessageCode tx cable len m
    let r := um9TxMessage tx cable (cells m .data len) (fun _ => default) 2
    x.state = m ∧
      if len < 1 ∨ 3 < len then x.value = (tx, 1) ∧ emitted x.log = []
      else if r.2.1 ≠ 1 then x.value = (r.1, 1) ∧ emitted x.log = []
      else x.value = (r.1, 0) ∧
        emitted x.log =
          [⟨(r.2.2 0).cin, len, [(r.2.2 0).b1, (r.2.2 0).b2, (r.2.2 0).b3].take len⟩] := by
  intro x r
  unfold x omsTxMessageCode
  by_cases hlen : len < 1 ∨ 3 < len
  · rw [if_pos hlen, if_pos hlen]
    exact ⟨rfl, rfl, rfl⟩
  rw [if_neg hlen, if_neg hlen]
  simp only [Logged.bind_apply, txReads_apply, emitted_append, emitted_accesses]
  by_cases hrows : r.2.1 ≠ 1
  · rw [if_pos hrows, if_pos hrows]
    exact ⟨rfl, rfl, rfl⟩
  · rw [if_neg hrows, if_neg hrows]
    exact ⟨rfl, rfl, rfl⟩

theorem omsTxWholeCode_apply (m : TxAccess → UInt8) (len : ℕ) :
    let x := omsTxWholeCode len m
    x.state = m ∧ emitted x.log = [] ∧ x.value = decide (1 ≤ len ∧ m (.data 0) = 0xF0) := by
  unfold omsTxWholeCode
  by_cases h1 : 1 ≤ len
  · rw [if_pos h1]
    refine ⟨rfl, rfl, ?_⟩
    show decide (m (.data 0) = 0xF0) = _
    simp only [h1, true_and]
  · rw [if_neg h1]
    exact ⟨rfl, rfl, (decide_eq_false fun h => h1 h.1).symm⟩

/-- The four bytes of a packet, and the three of a carry. -/
theorem cells_data (port : OmsPort) (pkt : OmsMidiPacket) (beyond : TxAccess → UInt8) :
    cells (omsTxMemory port pkt.data beyond) .data 4 = pkt.data := by
  obtain ⟨flags, len, data, hsize⟩ := pkt
  match data, hsize with
  | [_, _, _, _], _ => rfl

theorem cells_txCarry_take {port : OmsPort} {k : ℕ} (h : k ≤ port.txCarry.length)
    (data : List UInt8) (beyond : TxAccess → UInt8) :
    cells (omsTxMemory port data beyond) .txCarry k = port.txCarry.take k := by
  refine List.ext_getElem (by simp [h]) fun i h1 h2 => ?_
  rw [Logged.length_cells] at h1
  rw [List.getElem_take, ← List.getD_eq_getElem _ 0, Logged.getD_cells _ _ h1]
  exact List.getD_eq_getElem _ _ (by omega)

theorem cells_txCarry {port : OmsPort} (h : port.txCarry.length = 3) (data : List UInt8)
    (beyond : TxAccess → UInt8) :
    cells (omsTxMemory port data beyond) .txCarry 3 = port.txCarry := by
  rw [cells_txCarry_take h.ge, List.take_of_length_le h.le]

/-- The two branches of a call. -/
theorem omsTxPortCode_apply (port : OmsPort) (cable : ℕ) (pkt : OmsMidiPacket)
    (beyond : TxAccess → UInt8) :
    let m := omsTxMemory port pkt.data beyond
    let r := omsTxPortCode port cable pkt.flags pkt.len m
    let first := if pkt.cont = omsNoCont then (omsTxWholeCode pkt.len.toNat m).log else []
    if pkt.Conventional then
      let x := omsTxMessageCode port.tx cable pkt.len.toNat m
      r = ⟨⟨port.txCarryLen, x.value.1, x.value.2⟩, x.state, first ++ x.log⟩
    else
      let x := omsTxSysexChunkCode port.txCarryLen pkt.mode pkt.len.toNat m
      r = ⟨⟨x.value.1, port.tx, x.value.2⟩, x.state, first ++ x.log⟩ := by
  intro m r first
  have hfirst : m (.data 0) = pkt.data.getD 0 0 := by
    rw [← Logged.getD_cells m .data (show 0 < 4 by decide) 0, cells_data]
  obtain ⟨hstate, -, hvalue⟩ := omsTxWholeCode_apply m pkt.len.toNat
  unfold r first omsTxPortCode
  simp only
  by_cases hcont : pkt.flags &&& omsContMask = omsNoCont
  swap
  · have hmode : pkt.mode = (pkt.flags &&& omsContMask).toNat := if_neg hcont
    have hcont' : ¬pkt.cont = omsNoCont := hcont
    rw [if_neg hcont, if_neg fun h => hcont h.1, hmode, if_neg hcont']
    simp only [Logged.bind_apply, Logged.pure_apply, List.append_nil, List.nil_append]
  have hmode : pkt.mode = kTxWhole := if_pos hcont
  have hcont' : pkt.cont = omsNoCont := hcont
  rw [if_pos hcont, hmode, if_pos hcont']
  simp only [Logged.bind_apply, hstate, hvalue, hfirst, decide_eq_true_eq]
  by_cases hwhole : 1 ≤ pkt.len.toNat ∧ pkt.data.getD 0 0 = 0xF0
  · rw [if_pos hwhole, if_neg fun h => h.2 hwhole]
    simp only [Logged.bind_apply, Logged.pure_apply, List.append_nil]
  · rw [if_neg hwhole, if_pos ⟨hcont, hwhole⟩]
    simp only [Logged.bind_apply, Logged.pure_apply, List.append_nil]

end

/-! ## The hook -/

/-- At most two of the three bytes are in use. -/
structure OmsPort.CarryOk (p : OmsPort) : Prop where
  size : p.txCarry.length = 3
  short : p.txCarryLen ≤ 2

/-- A complete SysEx for a port, said to have more bytes than a packet. -/
def Overlong (pkt : Option OmsMidiPacket) (refCon : ℕ) : Prop :=
  ∃ p, pkt = some p ∧ sendPort? refCon ≠ none ∧ p.cont = omsNoCont ∧
    p.data.getD 0 0 = 0xF0 ∧ 4 < p.len

section
variable {s : Oms} {refCon ifaceNo cable : ℕ}

/-- A conventional message is none. -/
theorem Overlong.not_conventional {pkt : OmsMidiPacket} (h : Overlong (some pkt) refCon) :
    ¬pkt.Conventional := by
  obtain ⟨p, hp, -, -, h0, h4⟩ := h
  obtain rfl := Option.some.inj hp
  have h4' : 4 < pkt.len.toNat := h4
  have h1 : 1 ≤ pkt.len.toNat := by omega
  exact fun hconv => hconv.2 ⟨h1, h0⟩

/-- A chunk that is one. -/
theorem overlong_iff (hport : sendPort? refCon = some (ifaceNo, cable)) {pkt : OmsMidiPacket}
    (hconv : ¬pkt.Conventional) :
    Overlong (some pkt) refCon ↔ pkt.mode = kTxWhole ∧ 4 < pkt.len.toNat := by
  rw [OmsMidiPacket.mode_eq_whole]
  constructor
  · rintro ⟨p, hp, -, hcont, -, h4⟩
    obtain rfl := Option.some.inj hp
    exact ⟨hcont, h4⟩
  · rintro ⟨hcont, h4⟩
    have h1 : 1 ≤ pkt.len ∧ pkt.data.getD 0 0 = 0xF0 := not_not.1 fun hno => hconv ⟨hcont, hno⟩
    exact ⟨pkt, rfl, by rw [hport]; exact Option.some_ne_none _, hcont, h1.2, h4⟩

theorem Oms.setPort_self (s : Oms) (i c : ℕ) : s.setPort i c (s.port i c) = s := by
  simp only [setPort, port, upd, Function.update_eq_self]

theorem omsTxEmit_nil (s : Oms) (portCode : ℕ) : omsTxEmit s portCode [] = s := by
  simp [omsTxEmit, Oms.upd, Oms.log]

theorem omsTxSendCode_ignored {pkt : Option OmsMidiPacket} (beyond : TxAccess → UInt8)
    (h : pkt = none ∨ sendPort? refCon = none) :
    omsTxSendCode s pkt beyond refCon = (s.malformed, []) := by
  cases pkt with
  | none => rfl
  | some pkt =>
    have hport : sendPort? refCon = none := h.resolve_left (Option.some_ne_none pkt)
    rw [omsTxSendCode]
    simp only
    rw [if_pos (sendPort?_eq_none hport)]

/-- A call for a port. -/
theorem omsTxSendCode_port (h : sendPort? refCon = some (ifaceNo, cable)) (pkt : OmsMidiPacket)
    (beyond : TxAccess → UInt8) :
    let port := s.port (ifaceNo - 1) cable
    let r := omsTxPortCode port cable pkt.flags pkt.len (omsTxMemory port pkt.data beyond)
    omsTxSendCode s (some pkt) beyond refCon =
      (omsTxEmit ((s.setPort (ifaceNo - 1) cable (port.after r)).upd fun g =>
          { g with txMalformed := g.txMalformed + r.value.malformed })
        ((ifaceNo <<< 8) ||| cable) ((emitted r.log).map (TxEmit.packet cable)), r.log) := by
  obtain ⟨rfl, rfl, hbad⟩ := sendPort?_eq_some h
  rw [omsTxSendCode]
  simp only
  rw [if_neg hbad]

/-- A conventional message for a port. -/
theorem omsTxMessage_code (s : Oms) (ifaceNo cable : ℕ) {pkt : OmsMidiPacket}
    {m : TxAccess → UInt8} (hdata : cells m .data 4 = pkt.data) :
    let port := s.port (ifaceNo - 1) cable
    let x := omsTxMessageCode port.tx cable pkt.len.toNat m
    omsTxMessage s ifaceNo cable pkt =
      omsTxEmit ((s.setPort (ifaceNo - 1) cable { port with tx := x.value.1 }).upd fun g =>
          { g with txMalformed := g.txMalformed + x.value.2 })
        ((ifaceNo <<< 8) ||| cable) ((emitted x.log).map (TxEmit.packet cable)) := by
  intro port x
  obtain ⟨-, hcases⟩ := omsTxMessageCode_apply port.tx cable pkt.len.toNat m
  unfold x omsTxMessage
  by_cases hlen : pkt.len < 1 ∨ 3 < pkt.len
  · have hlen' : pkt.len.toNat < 1 ∨ 3 < pkt.len.toNat := hlen
    rw [if_pos hlen'] at hcases
    rw [if_pos hlen, hcases.1, hcases.2, List.map_nil, omsTxEmit_nil, Oms.setPort_self]
    rfl
  have hlen' : ¬(pkt.len.toNat < 1 ∨ 3 < pkt.len.toNat) := hlen
  have hbytes : cells m .data pkt.len.toNat = pkt.data.take pkt.len.toNat := by
    rw [← hdata, Logged.take_cells (by omega)]
  rw [if_neg hlen', hbytes] at hcases
  rw [if_neg hlen]
  simp only
  by_cases hrows : (um9TxMessage port.tx cable (pkt.data.take pkt.len.toNat)
      (fun _ => default) 2).2.1 ≠ 1
  · rw [if_pos hrows] at hcases
    rw [if_pos hrows, hcases.1, hcases.2, List.map_nil, omsTxEmit_nil]
    rfl
  · rw [if_neg hrows] at hcases
    rw [if_neg hrows, hcases.1, hcases.2, List.map_cons, TxEmit.packet_take]
    simp only [Oms.upd, UInt32.add_zero]
    rfl

/-- What is read to tell a SysEx from a message emits nothing. -/
theorem emitted_first (pkt : OmsMidiPacket) (m : TxAccess → UInt8) :
    emitted (if pkt.cont = omsNoCont then (omsTxWholeCode pkt.len.toNat m).log else []) = [] := by
  split_ifs
  · exact (omsTxWholeCode_apply m pkt.len.toNat).2.1
  · rfl

/-- **The hook** is that of the model, unless it is given a complete SysEx that is said to
    have more bytes than its packet. -/
theorem omsTxSend_code (hs : ∀ i c, (s.port i c).CarryOk) {pkt : Option OmsMidiPacket}
    (h : ¬Overlong pkt refCon) (beyond : TxAccess → UInt8) :
    omsTxSend s pkt refCon = some (omsTxSendCode s pkt beyond refCon).1 := by
  by_cases hignored : pkt = none ∨ sendPort? refCon = none
  · rw [omsTxSend_ignored hignored, omsTxSendCode_ignored beyond hignored]
  obtain ⟨hpkt, hport⟩ := not_or.1 hignored
  obtain ⟨pkt, rfl⟩ := Option.ne_none_iff_exists'.1 hpkt
  obtain ⟨⟨ifaceNo, cable⟩, hport⟩ := Option.ne_none_iff_exists'.1 hport
  rw [omsTxSend_port hport, omsTxSendCode_port hport]
  generalize hp : s.port (ifaceNo - 1) cable = port
  have hok : port.CarryOk := hp ▸ hs _ _
  have hbranch := omsTxPortCode_apply port cable pkt beyond
  have hdata := cells_data port pkt beyond
  have hcarry := cells_txCarry hok.size pkt.data beyond
  simp only at hbranch ⊢
  generalize omsTxMemory port pkt.data beyond = m at *
  by_cases hconv : pkt.Conventional
  · rw [if_pos hconv] at hbranch ⊢
    obtain ⟨hm, -⟩ := omsTxMessageCode_apply port.tx cable pkt.len.toNat m
    have hmessage := omsTxMessage_code s ifaceNo cable hdata
    rw [hp] at hmessage
    rw [hmessage, hbranch, emitted_append, emitted_first, OmsPort.after, hm, hcarry]
    rfl
  · rw [if_neg hconv] at hbranch ⊢
    have hlen : pkt.mode = kTxWhole → pkt.len.toNat ≤ 4 := fun hmode =>
      Nat.le_of_not_lt fun h4 => h ((overlong_iff hport hconv).2 ⟨hmode, h4⟩)
    have hchunk := omsTxSysexChunkCode_apply hcarry.symm
      (hok.short.trans (by decide)) cable hlen
    simp only at hchunk
    rw [hdata] at hchunk
    rw [omsTxChunk, hp, hchunk, hbranch, emitted_append, emitted_first]
    rfl

end

end Usbmidi9
