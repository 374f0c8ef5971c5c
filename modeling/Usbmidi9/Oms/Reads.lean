/-
  USBMIDI9 — the array accesses of the send hook (`oms/oms_tx.c`).

  `omsTxSendAccesses` are the elements of the packet's data, of a port's carry and of the
  local carry that a call touches, and `omsTxSendEmits` the calls of `oms_tx_emit`, both
  read off the log of the hook; what lies behind the arrays is a parameter.  The hook of
  `Usbmidi9.Oms.Tx` has no result exactly if an access is out of bounds
  (`omsTxSend_defined_iff`).

  A complete SysEx is looked at behind its data, if its length says so, before that
  length is checked (`omsTxSend_reads_iff`).
-/
import Usbmidi9.Oms.Carries
import Usbmidi9.Oms.Code

namespace Usbmidi9

/-- The elements that `oms_tx_send` touches, and the packets that it emits. -/
def omsTxSendAccesses (s : Oms) (pkt : Option OmsMidiPacket) (beyond : TxAccess → UInt8)
    (refCon : ℕ) : List TxAccess :=
  touched (omsTxSendCode s pkt beyond refCon).2

def omsTxSendEmits (s : Oms) (pkt : Option OmsMidiPacket) (beyond : TxAccess → UInt8)
    (refCon : ℕ) : List TxEmit :=
  emitted (omsTxSendCode s pkt beyond refCon).2

/-! ## The carry of a port -/

/-- No port's carry gets out of shape. -/
def CarriesKept (s s' : Oms) : Prop := ∀ i c, (s.port i c).CarryOk → (s'.port i c).CarryOk

theorem omsTxAppend_carryOk {p : OmsPort} {cable mode len : ℕ} {data : List UInt8} {n : UInt32}
    {r : ChunkResult} (hp : p.CarryOk) (h : omsTxAppend p cable mode data len n = some r) :
    r.port.CarryOk := by
  unfold omsTxAppend at h
  split at h
  · rename_i old new _ _
    simp only at h
    split_ifs at h
    · obtain rfl := Option.some.inj h
      exact ⟨hp.size, Nat.zero_le _⟩
    · obtain rfl := Option.some.inj h
      have hrest := omsTxMiddle_lt cable (old ++ new)
      have hsize := hp.size
      refine ⟨?_, hrest⟩
      simp only [List.length_append, List.length_drop]
      omega
  · cases h

theorem OmsPort.CarryOk.begun {p : OmsPort} (hp : p.CarryOk) (mode : ℕ) (data : List UInt8)
    (len : ℕ) : (p.begun mode data len).1.CarryOk := by
  unfold OmsPort.begun
  split_ifs
  · exact ⟨hp.size, Nat.zero_le _⟩
  · exact hp

/-- A chunk keeps its port's carry in shape. -/
theorem omsTxSysexChunk_carryOk {p : OmsPort} {cable mode len : ℕ} {data : List UInt8}
    {r : ChunkResult} (hp : p.CarryOk) (h : omsTxSysexChunk p cable mode data len = some r) :
    r.port.CarryOk := by
  have hbegun := hp.begun mode data len
  rcases omsTxSysexChunk_cases p cable mode data len with
    ⟨hnone, -⟩ | ⟨hrefused, -⟩ | ⟨hfull, -⟩ | ⟨happend, -⟩
  · rw [hnone] at h
    cases h
  · rw [hrefused] at h
    cases h
    exact hbegun
  · rw [hfull] at h
    cases h
    exact ⟨hbegun.size, Nat.zero_le _⟩
  · exact omsTxAppend_carryOk hbegun (happend ▸ h)

namespace CarriesKept
variable {s s' : Oms}

/-- What keeps or drops the carries keeps them in shape. -/
theorem moved (h : CarriesMoved s s') : CarriesKept s s' := by
  intro i c hp
  cases h i c with
  | kept hlen hcarry => exact ⟨hcarry ▸ hp.size, hlen ▸ hp.short⟩
  | dropped hlen hsize => exact ⟨hsize hp.size, hlen ▸ Nat.zero_le _⟩

theorem chunk {ifaceNo cable mode : ℕ} {pkt : OmsMidiPacket}
    (h : omsTxChunk s ifaceNo cable mode pkt = some s') : CarriesKept s s' := by
  obtain ⟨r, hr, hsent⟩ := omsTxChunk_sent h
  exact hsent.ports (P := fun p p' => p.CarryOk → p'.CarryOk) (fun _ => id)
    fun hp => omsTxSysexChunk_carryOk hp hr

theorem send {pkt : Option OmsMidiPacket} {refCon : ℕ} (h : omsTxSend s pkt refCon = some s') :
    CarriesKept s s' := by
  unfold omsTxSend at h
  split at h
  · exact Option.some.inj h ▸ moved (.quiet rfl)
  simp only at h
  split_ifs at h
  · exact Option.some.inj h ▸ moved (.quiet rfl)
  · exact chunk h
  · exact Option.some.inj h ▸ moved (.message s _ _ _)
  · exact chunk h

/-- **One step** keeps the carries in shape. -/
theorem step {e : OmsEvent} (h : omsStep s e = some s') : CarriesKept s s' := by
  by_cases he : ∃ pkt refCon, e = .send pkt refCon
  · obtain ⟨pkt, refCon, rfl⟩ := he
    exact send h
  · exact moved (.step (fun pkt refCon heq => he ⟨pkt, refCon, heq⟩) h)

/-- The carries of every reachable state. -/
theorem reach {drivers : ℕ → ClassDriver} (h : Reach omsStep (fun _ _ => True) (.boot drivers) s)
    (i c : ℕ) : (s.port i c).CarryOk := by
  have hboot : ((Oms.boot drivers).port i c).CarryOk := ⟨rfl, Nat.zero_le _⟩
  exact h.inv (I := fun s => (s.port i c).CarryOk) hboot fun _ _ _ hs _ hst => step hst i c hs

end CarriesKept

/-! ## Bounds -/

/-- A packet carries the bytes that it is given, as many as its CIN says. -/
structure TxEmit.Full (e : TxEmit) : Prop where
  cin_lt : e.cin < 16
  len : e.len = um9CinDataLength e.cin
  data : e.data.length = e.len

/-- An access within bounds, or a packet of the right length. -/
def TxOp.Ok : TxOp → Prop
  | .access a => a.InBounds
  | .emit e => e.Full

/-- What is logged is right, and the value satisfies `Q`. -/
abbrev TxCode.Good {α : Type} (x : TxCode α) (Q : α → Prop) : Prop := x.Does TxOp.Ok Q

open Logged (Does)

theorem txCopy_good {src dst : ℕ → TxAccess} {n : ℕ} (hsrc : ∀ i < n, (src i).InBounds)
    (hdst : ∀ i < n, (dst i).InBounds) : (txCopy src dst n).Good fun _ => True :=
  .copyCells hsrc hdst

theorem omsTxEmitCode_good {cin len : ℕ} {cell : ℕ → TxAccess} (hcin : cin < 16)
    (hlen : len = um9CinDataLength cin) (hcell : ∀ i < len, (cell i).InBounds) :
    (omsTxEmitCode cin cell len).Good fun _ => True := by
  have h3 : len ≤ 3 := hlen ▸ um9CinDataLength_le cin
  have hread : (txReads cell (min 3 len)).Good fun l => l.length = min 3 len :=
    .readCells fun i hi => hcell i (by omega)
  exact hread.bind fun l hl => .tell ⟨hcin, hlen, hl.trans (Nat.min_eq_right h3)⟩

/-- An end packet of one to three bytes. -/
theorem omsTxEndCin_spec {n : ℕ} (h : 1 ≤ n) (h3 : n ≤ 3) :
    omsTxEndCin n < 16 ∧ n = um9CinDataLength (omsTxEndCin n) := by
  have hall : ∀ n : Fin 4, 1 ≤ n.val →
      omsTxEndCin n < 16 ∧ n.val = um9CinDataLength (omsTxEndCin n) := by decide
  exact hall ⟨n, by omega⟩ h

theorem omsTxFlushCode_good {pos n : ℕ} (h1 : 1 ≤ n) (h : pos + n ≤ 6) :
    (omsTxFlushCode pos n).Good fun _ => True := by
  fun_induction omsTxFlushCode pos n with
  | case1 pos n ih =>
    have hfirst : (omsTxEmitCode cinSysexStart (.carry <| pos + ·) 3).Good fun _ => True :=
      omsTxEmitCode_good (by decide) rfl fun i hi => show pos + i < 6 by omega
    exact hfirst.bind fun _ _ => ih (by omega) (by omega)
  | case2 pos n hs =>
    have h3 : n ≤ 3 := Nat.le_of_lt_succ (Nat.lt_of_not_le fun h4 => hs (n - 4) (by omega))
    obtain ⟨hcin, hlen⟩ := omsTxEndCin_spec h1 h3
    exact omsTxEmitCode_good hcin hlen fun i hi => show pos + i < 6 by omega

theorem omsTxMiddleCode_good {pos n : ℕ} (h : pos + n ≤ 6) :
    (omsTxMiddleCode pos n).Good fun r => r.1 + r.2 ≤ 6 ∧ r.2 ≤ 2 := by
  fun_induction omsTxMiddleCode pos n with
  | case1 pos n ih =>
    have hfirst : (omsTxEmitCode cinSysexStart (.carry <| pos + ·) 3).Good fun _ => True :=
      omsTxEmitCode_good (by decide) rfl fun i hi => show pos + i < 6 by omega
    exact hfirst.bind fun _ _ => ih (by omega)
  | case2 pos n hs =>
    have h2 : n ≤ 2 := Nat.le_of_lt_succ (Nat.lt_of_not_le fun h3 => hs (n - 3) (by omega))
    exact .pure ⟨h, h2⟩

theorem omsTxAppendCode_good {carryLen len : ℕ} (hc : carryLen ≤ 2) (h1 : 1 ≤ len) (h4 : len ≤ 4)
    (mode : ℕ) : (omsTxAppendCode carryLen mode len).Good fun _ => True := by
  have hold : (txCopy .txCarry .carry carryLen).Good fun _ => True :=
    txCopy_good (fun i hi => show i < 3 by omega) fun i hi => show i < 6 by omega
  have hnew : (txCopy .data (.carry <| carryLen + ·) len).Good fun _ => True :=
    txCopy_good (fun i hi => show i < 4 by omega) fun i hi => show carryLen + i < 6 by omega
  refine hold.bind fun _ _ => hnew.bind fun _ _ => .ite (fun _ => ?_) fun _ => ?_
  · exact (omsTxFlushCode_good (by omega) (by omega)).bind fun _ _ => .pure trivial
  · refine (omsTxMiddleCode_good (by omega)).bind fun r hr => ?_
    have hrest : (txCopy (.carry <| r.1 + ·) .txCarry r.2).Good fun _ => True :=
      txCopy_good (fun i hi => show r.1 + i < 6 by omega) fun i hi => show i < 3 by omega
    exact hrest.bind fun _ _ => .pure trivial

theorem omsTxStartCode_good {carryLen : ℕ} (hc : carryLen ≤ 2) (mode len : ℕ) :
    (omsTxStartCode carryLen mode len).Good fun r => r.1 ≤ 2 := by
  have hread : (txRead (.data 0)).Good fun _ => True := .readCell (show 0 < 4 by decide)
  refine .ite (fun _ => .ite (fun _ => .pure (Nat.zero_le 2)) fun _ => ?_) fun _ => .pure hc
  refine hread.bind fun b _ => .pure ?_
  split_ifs
  · exact Nat.zero_le 2
  · exact hc

theorem omsTxUnterminatedCode_good {mode len : ℕ} (h : mode = kTxWhole → len ≤ 4) :
    (omsTxUnterminatedCode mode len).Good fun _ => True := by
  refine .ite (fun hw => .ite (fun _ => .pure trivial) fun h2 => ?_) fun _ => .pure trivial
  have h4 := h hw
  have hread : (txRead (.data (len - 1))).Good fun _ => True :=
    .readCell (show len - 1 < 4 by omega)
  exact hread.bind fun _ _ => .pure trivial

/-- **A chunk** is read within bounds unless it is a complete SysEx that claims more bytes
    than a packet has. -/
theorem omsTxSysexChunkCode_good {carryLen mode len : ℕ} (hc : carryLen ≤ 2)
    (h : mode = kTxWhole → len ≤ 4) :
    (omsTxSysexChunkCode carryLen mode len).Good fun _ => True := by
  refine (omsTxStartCode_good hc mode len).bind fun r hr =>
    (omsTxUnterminatedCode_good h).bind fun b _ => ?_
  refine .ite (fun _ => .pure trivial) fun _ => .ite (fun _ => .pure trivial) fun hlen => ?_
  refine .ite (fun _ => .pure trivial) fun _ => ?_
  exact (omsTxAppendCode_good hr (by omega) (by omega) mode).bind fun _ _ => .pure trivial

/-- A message of at most three bytes has one packet, with as many bytes as its CIN says. -/
theorem txRows_single {cable : ℕ} {msg : List UInt8} (h3 : msg.length ≤ 3) {ps : List EventPacket}
    (h : txRows cable msg = some ps) :
    ∃ cin, ps = [.ofNibbles cable cin msg] ∧ cin < 16 ∧ msg.length = um9CinDataLength cin := by
  unfold txRows at h
  split_ifs at h with hcable hrun hlone
  · obtain ⟨hlt, hlen⟩ := omsTxEndCin_spec (by have := hrun.2.1; omega) h3
    exact ⟨_, (Option.some.inj h).symm.trans (txRun_short h3), hlt, hlen⟩
  · refine ⟨cinSysexEnd1, ?_, by decide, by rw [hlone]; rfl⟩
    rw [hlone]
    exact (Option.some.inj h).symm
  · obtain ⟨pkt, hpkt, rfl⟩ := Option.map_eq_some_iff.1 h
    obtain ⟨-, -, -, cin, hcin, rfl⟩ := um9PacketEncode_eq_some.1 hpkt
    obtain ⟨hlt, hlen, -⟩ := um9CinForStatus_spec (msg.getD 0 0).toNat_lt hcin
    exact ⟨cin, rfl, hlt, hlen.symm⟩

/-- The row that the hook takes from `um9_tx_message`. -/
theorem um9TxMessage_row {cable : ℕ} {msg : List UInt8} {p : EventPacket}
    (h : txRows cable msg = some [p]) (tx : TxStream) :
    let r := um9TxMessage tx cable msg (fun _ => default) 2
    r.2.1 = 1 ∧ r.2.2 0 = p := by
  rw [um9TxMessage_eq, h]
  exact ⟨rfl, rfl⟩

theorem um9TxMessage_rejected {cable : ℕ} {msg : List UInt8} (h : txRows cable msg = none)
    (tx : TxStream) : (um9TxMessage tx cable msg (fun _ => default) 2).2.1 ≠ 1 := by
  rw [um9TxMessage_eq, h]
  exact Nat.zero_ne_one

theorem omsTxMessageCode_good {cable : ℕ} (hc : cable < 16) (tx : TxStream) (len : ℕ) :
    (omsTxMessageCode tx cable len).Good fun _ => True := by
  refine .ite (fun _ => .pure trivial) fun hlen => ?_
  have hread : (txReads .data len).Good fun l => l.length = len :=
    .readCells fun i hi => show i < 4 by omega
  refine hread.bind fun msg hmsg => .ite (fun _ => .pure trivial) fun hone => ?_
  refine Does.bind (Q := fun _ => True) (.tell ?_) fun _ _ => .pure trivial
  have h3 : msg.length ≤ 3 := by omega
  rcases hrows : txRows cable msg with _ | ps
  · exact absurd (um9TxMessage_rejected hrows tx) hone
  · obtain ⟨cin, rfl, hcin, hbytes⟩ := txRows_single h3 hrows
    rw [(um9TxMessage_row hrows tx).2]
    have hrowcin := EventPacket.cin_ofNibbles hc hcin msg
    refine ⟨EventPacket.cin_lt _, by rw [hrowcin, ← hbytes, hmsg], ?_⟩
    show (List.take len _).length = len
    rw [List.length_take]
    exact Nat.min_eq_left (by rw [← hmsg]; exact h3)

theorem omsTxWholeCode_good (len : ℕ) : (omsTxWholeCode len).Good fun _ => True := by
  have hread : (txRead (.data 0)).Good fun _ => True := .readCell (show 0 < 4 by decide)
  exact .ite (fun _ => hread.bind fun _ _ => .pure trivial) fun _ => .pure trivial

/-! ## Calls -/

section
variable {s s' : Oms} {refCon : ℕ}

theorem mem_touched {log : List TxOp} {a : TxAccess} : a ∈ touched log ↔ .access a ∈ log := by
  rw [touched, List.mem_filterMap]
  constructor
  · rintro ⟨op, hop, ha⟩
    cases op with
    | access a' => exact Option.some.inj ha ▸ hop
    | emit e => cases ha
  · exact fun h => ⟨_, h, rfl⟩

theorem mem_emitted {log : List TxOp} {e : TxEmit} : e ∈ emitted log ↔ .emit e ∈ log := by
  rw [emitted, List.mem_filterMap]
  constructor
  · rintro ⟨op, hop, he⟩
    cases op with
    | access a => cases he
    | emit e' => exact Option.some.inj he ▸ hop
  · exact fun h => ⟨_, h, rfl⟩

/-- **A call** keeps within bounds, and its packets have the length that their CIN says. -/
theorem omsTxSendCode_ok (hs : ∀ i c, (s.port i c).CarryOk) {pkt : Option OmsMidiPacket}
    (h : ¬Overlong pkt refCon) (beyond : TxAccess → UInt8) :
    ∀ op ∈ (omsTxSendCode s pkt beyond refCon).2, op.Ok := by
  by_cases hignored : pkt = none ∨ sendPort? refCon = none
  · rw [omsTxSendCode_ignored beyond hignored]
    exact List.forall_mem_nil _
  obtain ⟨hpkt, hport⟩ := not_or.1 hignored
  obtain ⟨pkt, rfl⟩ := Option.ne_none_iff_exists'.1 hpkt
  obtain ⟨⟨ifaceNo, cable⟩, hport⟩ := Option.ne_none_iff_exists'.1 hport
  obtain ⟨-, hc⟩ := sendPort?_bounds hport
  rw [omsTxSendCode_port hport]
  have hbranch := omsTxPortCode_apply (s.port (ifaceNo - 1) cable) cable pkt beyond
  have hshort := (hs (ifaceNo - 1) cable).short
  simp only at hbranch ⊢
  generalize omsTxMemory (s.port (ifaceNo - 1) cable) pkt.data beyond = m at *
  have hfirst : ∀ op ∈ if pkt.cont = omsNoCont then (omsTxWholeCode pkt.len.toNat m).log else [],
      op.Ok := by
    split_ifs
    · exact (omsTxWholeCode_good pkt.len.toNat m).1
    · exact List.forall_mem_nil _
  by_cases hconv : pkt.Conventional
  · rw [if_pos hconv] at hbranch
    rw [hbranch]
    exact List.forall_mem_append.2 ⟨hfirst, (omsTxMessageCode_good hc _ _ m).1⟩
  · rw [if_neg hconv] at hbranch
    have hlen : pkt.mode = kTxWhole → pkt.len.toNat ≤ 4 := fun hmode =>
      Nat.le_of_not_lt fun h4 => h ((overlong_iff hport hconv).2 ⟨hmode, h4⟩)
    rw [hbranch]
    exact List.forall_mem_append.2 ⟨hfirst, (omsTxSysexChunkCode_good hshort hlen m).1⟩

/-- The last byte of a complete SysEx is read. -/
theorem omsTxSysexChunkCode_last {carryLen len : ℕ} (h : 2 ≤ len) (m : TxAccess → UInt8) :
    TxOp.access (.data (len - 1)) ∈ (omsTxSysexChunkCode carryLen kTxWhole len m).log := by
  have hlast : ∀ m, (omsTxUnterminatedCode kTxWhole len m).log = [.access (.data (len - 1))] := by
    intro m
    rw [omsTxUnterminatedCode, if_pos rfl, if_neg (by omega)]
    rfl
  simp only [omsTxSysexChunkCode, Logged.bind_apply, hlast, List.mem_append, List.mem_singleton,
    true_or, or_true]

theorem omsTxSendAccesses_inBounds_iff (hs : ∀ i c, (s.port i c).CarryOk)
    (pkt : Option OmsMidiPacket) (beyond : TxAccess → UInt8) :
    (∀ a ∈ omsTxSendAccesses s pkt beyond refCon, a.InBounds) ↔ ¬Overlong pkt refCon := by
  constructor
  · rintro hbounds hlong
    obtain ⟨pkt, rfl, hport, -⟩ := id hlong
    obtain ⟨⟨ifaceNo, cable⟩, hport⟩ := Option.ne_none_iff_exists'.1 hport
    have hconv := hlong.not_conventional
    obtain ⟨hmode, h4⟩ := (overlong_iff hport hconv).1 hlong
    have hbranch := omsTxPortCode_apply (s.port (ifaceNo - 1) cable) cable pkt beyond
    simp only [if_neg hconv, hmode] at hbranch
    have hread : .data (pkt.len.toNat - 1) ∈ omsTxSendAccesses s (some pkt) beyond refCon := by
      rw [omsTxSendAccesses, mem_touched, omsTxSendCode_port hport]
      simp only [hbranch]
      exact List.mem_append_right _ (omsTxSysexChunkCode_last (by omega) _)
    have hlt : pkt.len.toNat - 1 < 4 := hbounds _ hread
    omega
  · intro hshort a ha
    exact omsTxSendCode_ok hs hshort beyond _ (mem_touched.1 ha)

/-! ## Results -/

/-- A chunk that is said to have more bytes than its data has no result. -/
theorem omsTxSysexChunk_long (p : OmsPort) (cable : ℕ) {data : List UInt8} {len : ℕ}
    (h : data.length < len) (h2 : 2 ≤ len) :
    omsTxSysexChunk p cable kTxWhole data len = none := by
  have hnone : data[len - 1]? = none := List.getElem?_eq_none_iff.2 (by omega)
  rw [omsTxSysexChunk_begun]
  simp only [if_true, if_neg (Nat.not_lt.2 h2), hnone]

/-- **The hook has a result exactly if it reads within bounds.** -/
theorem omsTxSend_defined_iff (hs : ∀ i c, (s.port i c).CarryOk) (pkt : Option OmsMidiPacket)
    (beyond : TxAccess → UInt8) :
    (∃ s', omsTxSend s pkt refCon = some s') ↔
      ∀ a ∈ omsTxSendAccesses s pkt beyond refCon, a.InBounds := by
  rw [omsTxSendAccesses_inBounds_iff hs]
  constructor
  · rintro ⟨s', hs'⟩ hlong
    obtain ⟨pkt, rfl, hport, -⟩ := id hlong
    obtain ⟨⟨ifaceNo, cable⟩, hport⟩ := Option.ne_none_iff_exists'.1 hport
    have hconv := hlong.not_conventional
    obtain ⟨hmode, h4⟩ := (overlong_iff hport hconv).1 hlong
    rw [omsTxSend_port hport, if_neg hconv, omsTxChunk, hmode,
      omsTxSysexChunk_long _ _ (by rw [pkt.size]; exact h4) (by omega)] at hs'
    cases hs'
  · exact fun h => ⟨_, omsTxSend_code hs h beyond⟩

/-- A call that is refused: it is counted once or twice, sends nothing and leaves the other
    ports alone. -/
structure SendRefused (s s' : Oms) (refCon : ℕ) : Prop where
  counted : s'.g.txMalformed = s.g.txMalformed + 1 ∨ s'.g.txMalformed = s.g.txMalformed + 2
  trace : s'.trace = s.trace
  converted : s'.g.txConverted = s.g.txConverted
  others : ∀ i c, sendPort? refCon ≠ some (i + 1, c) → s'.port i c = s.port i c

theorem OmsPort.begun_count (p : OmsPort) (mode : ℕ) (data : List UInt8) (len : ℕ) :
    (p.begun mode data len).2 = 0 ∨ (p.begun mode data len).2 = 1 := by
  unfold begun
  split_ifs
  · exact .inr rfl
  · exact .inl rfl

/-- **A packet without bytes or with more than it has room for is refused.** -/
theorem omsTxSend_refused {pkt : OmsMidiPacket} (hlen : pkt.len = 0 ∨ 4 < pkt.len)
    (h : omsTxSend s (some pkt) refCon = some s') : SendRefused s s' refCon := by
  have hbad : pkt.len.toNat = 0 ∨ 4 < pkt.len.toNat :=
    hlen.imp (fun h => congrArg UInt8.toNat h) id
  have hmalformed : SendRefused s s.malformed refCon := ⟨.inl rfl, rfl, rfl, fun _ _ _ => rfl⟩
  rcases hport : sendPort? refCon with _ | ⟨ifaceNo, cable⟩
  · rw [omsTxSend_ignored (.inr hport)] at h
    exact Option.some.inj h ▸ hmalformed
  rw [omsTxSend_port hport] at h
  split_ifs at h
  · have hcond : pkt.len < 1 ∨ 3 < pkt.len := by
      show pkt.len.toNat < 1 ∨ 3 < pkt.len.toNat
      omega
    rw [omsTxMessage, if_pos hcond] at h
    exact Option.some.inj h ▸ hmalformed
  · obtain ⟨⟨h1, -⟩, -⟩ := sendPort?_bounds hport
    obtain ⟨r, hr, rfl⟩ := Option.map_eq_some_iff.1 h
    rcases omsTxSysexChunk_cases (s.port (ifaceNo - 1) cable) cable pkt.mode pkt.data
        pkt.len.toNat with ⟨hnone, -⟩ | ⟨hrefused, -⟩ | ⟨-, hgood⟩ | ⟨-, hgood⟩
    · rw [hnone] at hr
      cases hr
    · obtain rfl := Option.some.inj (hrefused.symm.trans hr)
      refine ⟨?_, List.append_nil _, UInt32.add_zero _, ?_⟩
      · show s.g.txMalformed + (_ + 1) = _ ∨ s.g.txMalformed + (_ + 1) = _
        rcases OmsPort.begun_count (s.port (ifaceNo - 1) cable) pkt.mode pkt.data
            pkt.len.toNat with hcount | hcount
        · rw [hcount]
          exact .inl rfl
        · rw [hcount]
          exact .inr rfl
      · intro i c hne
        refine (s.port_setPort (ifaceNo - 1) cable _).2 i c ?_
        intro hic
        obtain ⟨rfl, rfl⟩ := Prod.mk.inj hic
        exact hne (by rw [hport, Nat.sub_add_cancel h1])
    · omega
    · omega

/-- **The send hook reads within the packet and its local carry**, and refuses the packets of
    no or of more than four bytes, exactly if the call is not one with a complete SysEx for a
    port that is said to have more than four bytes. -/
theorem omsTxSend_reads_iff {drivers : ℕ → ClassDriver}
    (h : Reach omsStep (fun _ _ => True) (.boot drivers) s) (pkt : Option OmsMidiPacket)
    (refCon : ℕ) (beyond : TxAccess → UInt8) :
    ((∀ a ∈ omsTxSendAccesses s pkt beyond refCon, a.InBounds) ∧
      ∀ p, pkt = some p → p.len = 0 ∨ 4 < p.len →
        ∃ s', omsTxSend s pkt refCon = some s' ∧ SendRefused s s' refCon) ↔
      ¬Overlong pkt refCon := by
  have hs := CarriesKept.reach h
  rw [← omsTxSendAccesses_inBounds_iff hs pkt beyond]
  refine and_iff_left_of_imp ?_
  rintro hbounds p rfl hlen
  obtain ⟨s', hs'⟩ := (omsTxSend_defined_iff hs (some p) beyond).2 hbounds
  exact ⟨s', hs', omsTxSend_refused hlen hs'⟩

end

/-- A packet that is said to have five bytes, on a port with a carry. -/
theorem omsTxSend_reads_long :
    let s := afterEvents carryEvents
    ∃ s', omsTxSend s (some ⟨omsMidCont, 5, [1, 2, 3, 4], rfl⟩) 0x0100 = some s' ∧
      SendRefused s s' 0x0100 := by
  intro s
  have hreach : Reach omsStep (fun _ _ => True) (.boot fun _ => .single) s :=
    .of_run runOk_true (show runEvents _ _ carryEvents = _ from rfl)
  have hok := (omsTxSend_reads_iff hreach (some ⟨omsMidCont, 5, [1, 2, 3, 4], rfl⟩) 0x0100
    fun _ => 0).2 ?_
  · exact hok.2 _ rfl (by decide)
  · rintro ⟨p, hp, -, hcont, -⟩
    obtain rfl := Option.some.inj hp
    exact absurd hcont (by decide)

/-- **The fifth byte of a packet of four is read.** -/
theorem not_omsTxSend_reads :
    let s := Oms.boot fun _ => .single
    ¬∀ a ∈ omsTxSendAccesses s (some ⟨omsNoCont, 5, [0xF0, 1, 2, 3], rfl⟩) (fun _ => 0) 0x0100,
      a.InBounds := by
  decide

end Usbmidi9
