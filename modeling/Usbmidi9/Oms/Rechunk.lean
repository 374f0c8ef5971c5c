/-
  USBMIDI9 — the two transmit paths for SysEx agree.

  The send hook gets a SysEx run in chunks of one to four bytes and cuts the
  bytes into packets as they come, keeping up to two bytes in the port's carry.
  `rechunker` is this as a machine whose state is the carry.  On the chunks of a
  run it emits what `um9_tx_message` writes for the whole run
  (`rechunker_chunks`), since cutting off full packets and going on with the
  remainder is cutting the whole (`txRun_middle`).

  The hook refines the machine (`sendHook_chunk`); calls for other ports and
  conventional messages leave the carry alone (`sendHook_inserted`).
-/
import Usbmidi9.Lib.Mealy
import Usbmidi9.Oms.Code
import Usbmidi9.Oms.Driver

namespace Usbmidi9

/-! ## Cutting bytes into packets -/

theorem omsTxFlush_eq (cable : ℕ) (l : List UInt8) : omsTxFlush cable l = txRun cable l := by
  fun_induction omsTxFlush cable l with
  | case1 a b c d rest ih => rw [ih, txRun]; rfl
  | case2 last hs =>
    rw [txRun_short (length_le_three hs), omsTxPacket, List.take_length]
    rfl

/-- **Cutting may stop anywhere** before the end and go on with the remainder. -/
theorem txRun_middle (cable : ℕ) (l : List UInt8) {rest : List UInt8} (h : rest ≠ []) :
    txRun cable (l ++ rest) =
      (omsTxMiddle cable l).1 ++ txRun cable ((omsTxMiddle cable l).2 ++ rest) := by
  fun_induction omsTxMiddle cable l with
  | case1 a b c l r ih =>
    obtain ⟨d, rest', hd⟩ := List.exists_cons_of_ne_nil
      (show l ++ rest ≠ [] by simp [h])
    rw [List.cons_append, List.cons_append, List.cons_append, hd, txRun, ← hd, ih]
    rfl
  | case2 l hs => rfl

/-! ## Chunks -/

namespace OmsMidiPacket

/-- One to four bytes. -/
def Sized (pkt : OmsMidiPacket) : Prop := 1 ≤ pkt.len ∧ pkt.len ≤ 4

instance (pkt : OmsMidiPacket) : Decidable pkt.Sized := inferInstanceAs (Decidable (_ ∧ _))

theorem Sized.length {pkt : OmsMidiPacket} (h : pkt.Sized) :
    pkt.bytes.length = pkt.len.toNat ∧ 1 ≤ pkt.len.toNat ∧ pkt.len.toNat ≤ 4 := by
  have h1 : 1 ≤ pkt.len.toNat := h.1
  have h4 : pkt.len.toNat ≤ 4 := h.2
  refine ⟨?_, h1, h4⟩
  rw [bytes, List.length_take, pkt.size]
  omega

theorem Sized.bytes_ne_nil {pkt : OmsMidiPacket} (h : pkt.Sized) : pkt.bytes ≠ [] := by
  obtain ⟨hl, h1, -⟩ := h.length
  exact List.ne_nil_of_length_pos (by omega)

end OmsMidiPacket

/-- The packets in which a run is sent: one without continuation, or a start, any
    number of middles and an end. -/
inductive Chunked : List UInt8 → List OmsMidiPacket → Prop
  | whole {pkt} : pkt.cont = omsNoCont → pkt.Sized → Chunked pkt.bytes [pkt]
  | split {start mids last} : start.cont = omsStartCont → (∀ p ∈ mids, p.cont = omsMidCont) →
      last.cont = omsEndCont → (∀ p ∈ start :: (mids ++ [last]), p.Sized) →
      Chunked ((start :: (mids ++ [last])).flatMap OmsMidiPacket.bytes) (start :: (mids ++ [last]))

/-- A call of the send hook. -/
structure SendCall where
  pkt : Option OmsMidiPacket
  refCon : ℕ

/-- What a chunk does to the carry, and the packets it emits. -/
def rechunk (cable mode : ℕ) (carry bytes : List UInt8) : List UInt8 × List EventPacket :=
  let all := if mode = kTxStart ∨ mode = kTxWhole then bytes else carry ++ bytes
  if mode = kTxEnd ∨ mode = kTxWhole then ([], txRun cable all)
  else ((omsTxMiddle cable all).2, (omsTxMiddle cable all).1)

/-- The carry of a port on the chunks of its cable. -/
def rechunker (ifaceNo cable : ℕ) : Mealy (List UInt8) SendCall OmsEntry where
  step carry call := match call.pkt with
    | none => (carry, [])
    | some pkt =>
      let r := rechunk cable pkt.mode carry pkt.bytes
      (r.1, r.2.map (.transport ((ifaceNo <<< 8) ||| cable)))

section
variable (ifaceNo cable : ℕ)

theorem rechunker_step {call : SendCall} {pkt : OmsMidiPacket} (h : call.pkt = some pkt)
    (carry : List UInt8) :
    (rechunker ifaceNo cable).step carry call =
      ((rechunk cable pkt.mode carry pkt.bytes).1,
        (rechunk cable pkt.mode carry pkt.bytes).2.map
          (.transport ((ifaceNo <<< 8) ||| cable))) := by
  simp only [rechunker, h]

/-- The middles and the end of a run. -/
theorem rechunker_mids {mids : List OmsMidiPacket} {last : OmsMidiPacket}
    (hmids : ∀ p ∈ mids, p.cont = omsMidCont) (hlast : last.cont = omsEndCont)
    (hsize : last.Sized) {calls : List SendCall}
    (hcalls : calls.map SendCall.pkt = (mids ++ [last]).map some) (carry : List UInt8) :
    (rechunker ifaceNo cable).out carry calls =
        (txRun cable (carry ++ (mids ++ [last]).flatMap OmsMidiPacket.bytes)).map
          (.transport ((ifaceNo <<< 8) ||| cable)) ∧
      (rechunker ifaceNo cable).final carry calls = [] := by
  induction mids generalizing calls carry with
  | nil =>
    obtain ⟨call, calls', rfl, hp, hnil⟩ := List.map_eq_cons_iff.1 hcalls
    obtain rfl := List.map_eq_nil_iff.1 hnil
    have hmode : last.mode = kTxEnd := by rw [OmsMidiPacket.mode, hlast]; rfl
    have hstep := rechunker_step ifaceNo cable hp carry
    rw [hmode] at hstep
    simp [hstep, rechunk]
  | cons p mids ih =>
    obtain ⟨call, calls', rfl, hp, hrest⟩ := List.map_eq_cons_iff.1 hcalls
    obtain ⟨hpc, hmids⟩ := List.forall_mem_cons.1 hmids
    have hmode : p.mode = kTxMid := by rw [OmsMidiPacket.mode, hpc]; rfl
    have hstep := rechunker_step ifaceNo cable hp carry
    rw [hmode] at hstep
    obtain ⟨ho, hf⟩ := ih hmids hrest (omsTxMiddle cable (carry ++ p.bytes)).2
    have hne : (mids ++ [last]).flatMap OmsMidiPacket.bytes ≠ [] := by simp [hsize.bytes_ne_nil]
    rw [Mealy.out_cons, Mealy.final_cons, hstep]
    refine ⟨?_, hf⟩
    -- the middle packets of the chunk come first, the rest starts from the remainder
    rw [List.cons_append, List.flatMap_cons, ← List.append_assoc,
      txRun_middle cable (carry ++ p.bytes) hne, List.map_append, ← ho]
    rfl

/-- **The chunks of a run** emit the packets of the run and leave no carry. -/
theorem rechunker_chunks {run : List UInt8} {pkts : List OmsMidiPacket} (h : Chunked run pkts)
    {calls : List SendCall} (hcalls : calls.map SendCall.pkt = pkts.map some)
    (carry : List UInt8) :
    (rechunker ifaceNo cable).out carry calls =
        (txRun cable run).map (.transport ((ifaceNo <<< 8) ||| cable)) ∧
      (rechunker ifaceNo cable).final carry calls = [] := by
  cases h with
  | @whole pkt hcont hsize =>
    obtain ⟨call, calls', rfl, hp, hnil⟩ := List.map_eq_cons_iff.1 hcalls
    obtain rfl := List.map_eq_nil_iff.1 hnil
    have hmode : pkt.mode = kTxWhole := by rw [OmsMidiPacket.mode, if_pos hcont]
    have hstep := rechunker_step ifaceNo cable hp carry
    rw [hmode] at hstep
    simp [hstep, rechunk]
  | @split start mids last hstart hmids hlast hsize =>
    obtain ⟨call, calls', rfl, hp, hrest⟩ := List.map_eq_cons_iff.1 hcalls
    have hlsize : last.Sized := hsize last (by simp)
    have hmode : start.mode = kTxStart := by rw [OmsMidiPacket.mode, hstart]; rfl
    have hstep := rechunker_step ifaceNo cable hp carry
    rw [hmode] at hstep
    obtain ⟨ho, hf⟩ := rechunker_mids ifaceNo cable hmids hlast hlsize hrest
      (omsTxMiddle cable start.bytes).2
    have hne : (mids ++ [last]).flatMap OmsMidiPacket.bytes ≠ [] := by simp [hlsize.bytes_ne_nil]
    rw [Mealy.out_cons, Mealy.final_cons, hstep]
    refine ⟨?_, hf⟩
    rw [List.flatMap_cons, txRun_middle cable start.bytes hne, List.map_append, ← ho]
    rfl

end

/-! ## The port of the chunks -/

/-- The carry of a port holds the bytes `carry`. -/
structure OmsPort.Carries (p : OmsPort) (carry : List UInt8) : Prop where
  len : p.txCarryLen = carry.length
  data : p.txCarry.take carry.length = carry
  short : carry.length ≤ 2

theorem OmsPort.carries_nil {p : OmsPort} : p.Carries [] ↔ p.txCarryLen = 0 := by
  constructor
  · intro h
    exact h.len
  · intro h
    exact ⟨h, by simp, by simp⟩

theorem readArray_prefix {a l : List UInt8} (h : a.take l.length = l) :
    readArray a l.length = some l := by
  have hle : l.length ≤ a.length := by
    have hlen := congrArg List.length h
    rw [List.length_take] at hlen
    omega
  rw [readArray, if_pos hle, h]

/-- The carry and the chunk together are cut into packets. -/
theorem omsTxAppend_carries {p : OmsPort} {carry : List UInt8} (hp : p.Carries carry)
    {pkt : OmsMidiPacket} (hsize : pkt.Sized) (cable mode : ℕ) (malformed : UInt32)
    (hstart : mode = kTxStart ∨ mode = kTxWhole → carry = []) :
    ∃ r, omsTxAppend p cable mode pkt.data pkt.len.toNat malformed = some r ∧
      r.packets = (rechunk cable mode carry pkt.bytes).2 ∧
      r.port.Carries (rechunk cable mode carry pkt.bytes).1 := by
  have hold : readArray p.txCarry p.txCarryLen = some carry := by
    rw [hp.len, readArray_prefix hp.data]
  have hnew : readArray pkt.data pkt.len.toNat = some pkt.bytes := by
    rw [readArray, pkt.size, if_pos hsize.length.2.2]
    rfl
  have hall : (if mode = kTxStart ∨ mode = kTxWhole then pkt.bytes else carry ++ pkt.bytes) =
      carry ++ pkt.bytes := by
    split_ifs with hm
    · rw [hstart hm, List.nil_append]
    · rfl
  simp only [omsTxAppend, hold, hnew, rechunk, hall]
  by_cases hend : mode = kTxEnd ∨ mode = kTxWhole
  · simp only [if_pos hend]
    exact ⟨_, rfl, omsTxFlush_eq cable _, OmsPort.carries_nil.2 rfl⟩
  · simp only [if_neg hend]
    refine ⟨_, rfl, rfl, rfl, ?_, omsTxMiddle_lt cable _⟩
    simp

/-- The carry from which a chunk goes on: a start drops what a broken run left. -/
def carryFor (mode : ℕ) (carry : List UInt8) : List UInt8 :=
  if mode = kTxStart ∨ mode = kTxWhole then [] else carry

theorem rechunk_carryFor (cable mode : ℕ) (carry bytes : List UInt8) :
    rechunk cable mode (carryFor mode carry) bytes = rechunk cable mode carry bytes := by
  unfold rechunk carryFor
  by_cases hm : mode = kTxStart ∨ mode = kTxWhole
  · simp only [if_pos hm]
  · simp only [if_neg hm]

/-- **A chunk** on a port does what the machine does on its carry. -/
theorem omsTxSysexChunk_carries {p : OmsPort} {carry : List UInt8} (hp : p.Carries carry)
    {pkt : OmsMidiPacket} (hsize : pkt.Sized) (cable mode : ℕ)
    (hwhole : mode = kTxWhole → IsRun pkt.bytes) :
    ∃ r, omsTxSysexChunk p cable mode pkt.data pkt.len.toNat = some r ∧
      r.packets = (rechunk cable mode carry pkt.bytes).2 ∧
      r.port.Carries (rechunk cable mode carry pkt.bytes).1 := by
  obtain ⟨hlen, h1, h4⟩ := hsize.length
  unfold omsTxSysexChunk
  simp only
  generalize hq : (if (mode = kTxStart ∨ mode = kTxWhole) ∧
    (p.txCarryLen ≠ 0 ∨ pkt.len.toNat = 0 ∨ pkt.data.getD 0 0 ≠ 0xF0)
    then { p with txCarryLen := 0 } else p) = q
  have hcarries : q.Carries (carryFor mode carry) := by
    subst hq
    unfold carryFor
    by_cases hm : mode = kTxStart ∨ mode = kTxWhole
    · rw [if_pos hm]
      split_ifs with hbad
      · exact OmsPort.carries_nil.2 rfl
      · exact OmsPort.carries_nil.2 (not_not.1 fun hne => hbad ⟨hm, .inl hne⟩)
    · rw [if_neg hm, if_neg fun hbad => hm hbad.1]
      exact hp
  have hroom : ¬6 < q.txCarryLen + pkt.len.toNat := by
    have hshort := hcarries.short
    rw [hcarries.len]
    omega
  have hgood : ¬(pkt.len.toNat = 0 ∨ 4 < pkt.len.toNat) := by omega
  have hnil : mode = kTxStart ∨ mode = kTxWhole → carryFor mode carry = [] := fun hm => if_pos hm
  rw [← rechunk_carryFor]
  by_cases hw : mode = kTxWhole
  · obtain ⟨-, h2, h7⟩ := hwhole hw
    rw [hlen] at h2 h7
    have hlt : pkt.len.toNat - 1 < pkt.data.length := by rw [pkt.size]; omega
    have hget : pkt.data[pkt.len.toNat - 1]? = some 0xF7 := by
      rw [OmsMidiPacket.bytes, List.getD_eq_getElem?_getD,
        List.getElem?_take_of_lt (by omega), List.getElem?_eq_getElem hlt, Option.getD_some] at h7
      rw [List.getElem?_eq_getElem hlt, h7]
    rw [if_pos hw, if_neg (by omega), hget]
    simp only
    rw [if_neg (by simp), if_neg hgood, if_neg hroom]
    exact omsTxAppend_carries hcarries hsize cable mode _ hnil
  · rw [if_neg hw, if_neg hgood, if_neg hroom]
    exact omsTxAppend_carries hcarries hsize cable mode _ hnil

/-! ## The hook -/

/-- What a call of the hook does on the port it is for: the port, and the packets
    that go to the transport. -/
structure Sent (s s' : Oms) (ifaceNo cable : ℕ) (p : OmsPort) (ps : List EventPacket) : Prop where
  port : s'.port (ifaceNo - 1) cable = p
  others : ∀ i c, (i, c) ≠ (ifaceNo - 1, cable) → s'.port i c = s.port i c
  trace : s'.trace = s.trace ++ ps.map (.transport ((ifaceNo <<< 8) ||| cable))

theorem Oms.port_setPort (s : Oms) (i c : ℕ) (p : OmsPort) :
    (s.setPort i c p).port i c = p ∧
      ∀ j k, (j, k) ≠ (i, c) → (s.setPort i c p).port j k = s.port j k := by
  constructor
  · simp only [Oms.port, Oms.setPort, Oms.upd, Function.update_self]
  · intro j k hne
    by_cases hj : j = i
    · subst hj
      have hk : k ≠ c := by
        rintro rfl
        exact hne rfl
      simp only [Oms.port, Oms.setPort, Oms.upd, Function.update_self, Function.update_of_ne hk]
    · simp only [Oms.port, Oms.setPort, Oms.upd, Function.update_of_ne hj]

/-- What holds of an unchanged port and of the port that a call is for holds of every port. -/
theorem Sent.ports {s s' : Oms} {ifaceNo cable : ℕ} {p : OmsPort} {ps : List EventPacket}
    (h : Sent s s' ifaceNo cable p ps) {P : OmsPort → OmsPort → Prop} (hrefl : ∀ q, P q q)
    (hp : P (s.port (ifaceNo - 1) cable) p) (i c : ℕ) : P (s.port i c) (s'.port i c) := by
  by_cases hic : (i, c) = (ifaceNo - 1, cable)
  · obtain ⟨rfl, rfl⟩ := Prod.mk.inj hic
    rw [h.port]
    exact hp
  · rw [h.others i c hic]
    exact hrefl _

theorem omsTxChunk_sent {s s' : Oms} {ifaceNo cable mode : ℕ} {pkt : OmsMidiPacket}
    (h : omsTxChunk s ifaceNo cable mode pkt = some s') :
    ∃ r, omsTxSysexChunk (s.port (ifaceNo - 1) cable) cable mode pkt.data pkt.len.toNat = some r ∧
      Sent s s' ifaceNo cable r.port r.packets := by
  obtain ⟨r, hr, rfl⟩ := Option.map_eq_some_iff.1 h
  obtain ⟨hsame, hothers⟩ := s.port_setPort (ifaceNo - 1) cable r.port
  exact ⟨r, hr, hsame, hothers, rfl⟩

theorem omsTxMessage_sent (s : Oms) (ifaceNo cable : ℕ) (pkt : OmsMidiPacket) :
    ∃ p ps, Sent s (omsTxMessage s ifaceNo cable pkt) ifaceNo cable p ps ∧
      p.txCarryLen = (s.port (ifaceNo - 1) cable).txCarryLen ∧
      p.txCarry = (s.port (ifaceNo - 1) cable).txCarry := by
  have hsame : ∀ s₁ : Oms, (∀ i c, s₁.port i c = s.port i c) → s₁.trace = s.trace →
      Sent s s₁ ifaceNo cable (s.port (ifaceNo - 1) cable) [] := by
    intro s₁ hp ht
    exact ⟨hp _ _, fun i c _ => hp i c, by rw [ht]; simp⟩
  unfold omsTxMessage
  split_ifs with hlen
  · exact ⟨_, [], hsame s.malformed (fun _ _ => rfl) rfl, rfl, rfl⟩
  simp only
  split_ifs with hrows
  · obtain ⟨hp, ho⟩ := s.port_setPort (ifaceNo - 1) cable { s.port (ifaceNo - 1) cable with
      tx := (um9TxMessage (s.port (ifaceNo - 1) cable).tx cable (pkt.data.take pkt.len.toNat)
        (fun _ => default) 2).1 }
    exact ⟨_, [], ⟨hp, ho, by simp [Oms.malformed, Oms.upd, Oms.setPort]⟩, rfl, rfl⟩
  · obtain ⟨hp, ho⟩ := s.port_setPort (ifaceNo - 1) cable { s.port (ifaceNo - 1) cable with
      tx := (um9TxMessage (s.port (ifaceNo - 1) cable).tx cable (pkt.data.take pkt.len.toNat)
        (fun _ => default) 2).1 }
    exact ⟨_, _, ⟨hp, ho, rfl⟩, rfl, rfl⟩

/-- A call for a port, by its code. -/
theorem omsTxSendCode_sent (s : Oms) {refCon ifaceNo cable : ℕ}
    (h : sendPort? refCon = some (ifaceNo, cable)) (pkt : OmsMidiPacket)
    (beyond : TxAccess → UInt8) :
    let port := s.port (ifaceNo - 1) cable
    let r := omsTxPortCode port cable pkt.flags pkt.len (omsTxMemory port pkt.data beyond)
    Sent s (omsTxSendCode s (some pkt) beyond refCon).1 ifaceNo cable (port.after r)
      ((emitted r.log).map (TxEmit.packet cable)) := by
  intro port r
  obtain ⟨hsame, hothers⟩ := s.port_setPort (ifaceNo - 1) cable (port.after r)
  rw [omsTxSendCode_port h]
  exact ⟨hsame, hothers, rfl⟩

/-- A call with what lies behind the arrays that it works with. -/
structure PlacedCall extends SendCall where
  beyond : TxAccess → UInt8

/-- The hook, with what a call does outside the shim. -/
def sendHook : Mealy Oms PlacedCall OmsEntry where
  step s call :=
    let s' := (omsTxSendCode s call.pkt call.beyond call.refCon).1
    (s', s'.trace.drop s.trace.length)

theorem Sent.step {s : Oms} {ifaceNo cable : ℕ} {call : PlacedCall} {p : OmsPort}
    {ps : List EventPacket}
    (h : Sent s (omsTxSendCode s call.pkt call.beyond call.refCon).1 ifaceNo cable p ps) :
    (sendHook.step s call).2 = ps.map (.transport ((ifaceNo <<< 8) ||| cable)) := by
  show (omsTxSendCode s call.pkt call.beyond call.refCon).1.trace.drop s.trace.length = _
  rw [h.trace, List.drop_left]

/-- Different ports have different port codes. -/
theorem portCode_inj {i j c d : ℕ} (hc : c < omsCables) (hd : d < omsCables)
    (h : (i <<< 8) ||| c = (j <<< 8) ||| d) : i = j ∧ c = d := by
  have hc' : c < 2 ^ 8 := hc.trans (by decide)
  have hd' : d < 2 ^ 8 := hd.trans (by decide)
  rw [← Nat.shiftLeft_add_eq_or_of_lt hc', ← Nat.shiftLeft_add_eq_or_of_lt hd', Nat.shiftLeft_eq,
    Nat.shiftLeft_eq] at h
  omega

/-- A call with a chunk of a run for the port. -/
def IsChunk (ifaceNo cable : ℕ) (call : SendCall) : Prop :=
  ∃ pkt, call.pkt = some pkt ∧ sendPort? call.refCon = some (ifaceNo, cable) ∧ pkt.Sized ∧
    (pkt.cont = omsNoCont → IsRun pkt.bytes)

/-- A call that may come in between: for another port, or with a message without
    continuation that does not start with F0. -/
def Inserted (ifaceNo cable : ℕ) (call : SendCall) : Prop :=
  ∀ pkt ∈ call.pkt, sendPort? call.refCon = some (ifaceNo, cable) →
    pkt.cont = omsNoCont ∧ pkt.bytes.getD 0 0 ≠ 0xF0

instance (ifaceNo cable : ℕ) (call : SendCall) : Decidable (Inserted ifaceNo cable call) :=
  inferInstanceAs (Decidable (∀ pkt ∈ call.pkt, _ → _))

/-- The three cells of a carry. -/
theorem OmsPort.Carries.cells {p : OmsPort} {carry : List UInt8} (hp : p.Carries carry)
    (data : List UInt8) (beyond : TxAccess → UInt8) :
    let q := { p with txCarry := Logged.cells (omsTxMemory p data beyond) .txCarry 3 }
    OmsPort.Carries q carry := by
  have hle : carry.length ≤ p.txCarry.length := by
    have hlen := congrArg List.length hp.data
    rw [List.length_take] at hlen
    omega
  refine ⟨hp.len, ?_, hp.short⟩
  show (Logged.cells (omsTxMemory p data beyond) .txCarry 3).take carry.length = carry
  rw [Logged.take_cells (hp.short.trans (by decide)), cells_txCarry_take hle, hp.data]

/-- **A chunk** is a step of the machine on the port's carry. -/
theorem sendHook_chunk {s : Oms} {carry : List UInt8} {ifaceNo cable : ℕ} {call : PlacedCall}
    (h : IsChunk ifaceNo cable call.toSendCall) (hs : (s.port (ifaceNo - 1) cable).Carries carry) :
    let r := (rechunker ifaceNo cable).step carry call.toSendCall
    (sendHook.step s call).2 = r.2 ∧
      ((sendHook.step s call).1.port (ifaceNo - 1) cable).Carries r.1 := by
  obtain ⟨pkt, hp, hport, hsize, hrun⟩ := h
  have hconv : ¬pkt.Conventional := by
    rintro ⟨hcont, hno⟩
    have hhead := OmsMidiPacket.bytes_head hsize.1
    exact hno ⟨hsize.1, hhead ▸ (hrun hcont).1⟩
  have hwhole : pkt.mode = kTxWhole → IsRun pkt.bytes := fun hmode =>
    hrun (OmsMidiPacket.mode_eq_whole.1 hmode)
  have hsent := omsTxSendCode_sent s hport pkt call.beyond
  have hbranch := omsTxPortCode_apply (s.port (ifaceNo - 1) cable) cable pkt call.beyond
  have hq := hs.cells pkt.data call.beyond
  have hdata := cells_data (s.port (ifaceNo - 1) cable) pkt call.beyond
  simp only [if_neg hconv] at hsent hbranch hq
  rw [hbranch, ← hp] at hsent
  generalize omsTxMemory (s.port (ifaceNo - 1) cable) pkt.data call.beyond = m at *
  obtain ⟨r, hr, hps, hcarries⟩ := omsTxSysexChunk_carries hq hsize cable pkt.mode hwhole
  have hlen : pkt.mode = kTxWhole → pkt.len.toNat ≤ 4 := fun _ => hsize.2
  have hchunk := omsTxSysexChunkCode_apply (m := m) rfl
    (hq.len.trans_le (hq.short.trans (by decide))) cable hlen
  simp only [hdata] at hchunk
  obtain rfl := Option.some.inj (hr.symm.trans hchunk)
  refine ⟨?_, ?_⟩
  · rw [hsent.step, rechunker_step ifaceNo cable hp, ← hps, emitted_append, emitted_first]
    rfl
  · have hport' : (sendHook.step s call).1.port (ifaceNo - 1) cable = _ := hsent.port
    rw [hport', rechunker_step ifaceNo cable hp]
    exact hcarries

/-- A call that is refused does nothing but count. -/
theorem sendHook_ignored {s : Oms} {call : PlacedCall}
    (h : call.pkt = none ∨ sendPort? call.refCon = none) :
    sendHook.step s call = (s.malformed, []) := by
  simp only [sendHook, omsTxSendCode_ignored call.beyond h]
  exact Prod.ext rfl List.drop_length

/-- **A call in between** leaves the carry alone, and one for another port sends
    nothing under the port's code. -/
theorem sendHook_inserted {s : Oms} {carry : List UInt8} {ifaceNo cable : ℕ} {call : PlacedCall}
    (hb : 1 ≤ ifaceNo ∧ cable < omsCables) (h : Inserted ifaceNo cable call.toSendCall)
    (hs : (s.port (ifaceNo - 1) cable).Carries carry) :
    ((sendHook.step s call).1.port (ifaceNo - 1) cable).Carries carry ∧
      (sendPort? call.refCon ≠ some (ifaceNo, cable) →
        ∀ p, .transport ((ifaceNo <<< 8) ||| cable) p ∉ (sendHook.step s call).2) := by
  by_cases hignored : call.pkt = none ∨ sendPort? call.refCon = none
  · rw [sendHook_ignored hignored]
    exact ⟨hs, fun _ _ => List.not_mem_nil⟩
  obtain ⟨hpkt, hport⟩ := not_or.1 hignored
  obtain ⟨pkt, hpkt⟩ := Option.ne_none_iff_exists'.1 hpkt
  obtain ⟨⟨i, c⟩, hport⟩ := Option.ne_none_iff_exists'.1 hport
  obtain ⟨⟨hone, -⟩, hc⟩ := sendPort?_bounds hport
  have hsent := omsTxSendCode_sent s hport pkt call.beyond
  simp only at hsent
  rw [← hpkt] at hsent
  by_cases hown : (i, c) = (ifaceNo, cable)
  · obtain ⟨rfl, rfl⟩ := Prod.mk.inj hown
    obtain ⟨hcont, hne⟩ := h pkt hpkt hport
    have hconv : pkt.Conventional := by
      refine ⟨hcont, ?_⟩
      rintro ⟨h1, hhead⟩
      exact hne ((OmsMidiPacket.bytes_head h1).trans hhead)
    have hbranch := omsTxPortCode_apply (s.port (i - 1) c) c pkt call.beyond
    simp only [if_pos hconv] at hbranch
    refine ⟨?_, fun hne => absurd hport hne⟩
    have hport' : (sendHook.step s call).1.port (i - 1) c = _ := hsent.port
    obtain ⟨hm, -⟩ := omsTxMessageCode_apply (s.port (i - 1) c).tx c pkt.len.toNat
      (omsTxMemory (s.port (i - 1) c) pkt.data call.beyond)
    have hq := hs.cells pkt.data call.beyond
    rw [hport', hbranch, OmsPort.after, hm]
    exact ⟨hq.len, hq.data, hq.short⟩
  · have hne : (ifaceNo - 1, cable) ≠ (i - 1, c) := by
      intro he
      obtain ⟨hi, hc⟩ := Prod.mk.inj he
      exact hown (Prod.ext (by simp only; omega) hc.symm)
    refine ⟨?_, ?_⟩
    · rw [show (sendHook.step s call).1.port (ifaceNo - 1) cable = _ from hsent.others _ _ hne]
      exact hs
    · intro _ q hq
      rw [hsent.step] at hq
      obtain ⟨q', -, he⟩ := List.mem_map.1 hq
      injection he with hcode
      obtain ⟨hi, hc⟩ := portCode_inj hc hb.2 hcode
      exact hown (Prod.ext hi hc)

/-! ## Runs -/

theorem Chunked.sized {run : List UInt8} {pkts : List OmsMidiPacket} (h : Chunked run pkts) :
    ∀ pkt ∈ pkts, pkt.Sized ∧ (pkt.cont = omsNoCont → pkt.bytes = run) := by
  cases h with
  | whole hcont hsize => simp [hsize]
  | @split start mids last hstart hmids hlast hsize =>
    intro pkt hp
    refine ⟨hsize pkt hp, ?_⟩
    intro hcont
    simp only [List.mem_cons, List.mem_append, List.not_mem_nil, or_false] at hp
    rcases hp with rfl | hp | rfl
    · exact absurd (hcont.symm.trans hstart) (by decide)
    · exact absurd (hcont.symm.trans (hmids pkt hp)) (by decide)
    · exact absurd (hcont.symm.trans hlast) (by decide)

/-- **The transmit paths agree.**  Take any run F0 … F7, any way of sending it in
    chunks through the hook to a port without a carry, and any calls in between
    that are for other ports or carry conventional messages.  Whatever lies behind the
    arrays of the calls, the chunks pass to the transport the packets that
    `um9_tx_message` writes for the whole run, calls for other ports pass nothing
    under the port's code, and the port ends without a carry. -/
theorem sysex_chunks_agree {ifaceNo cable : ℕ} {run : List UInt8} (hrun : IsRun run)
    {pkts : List OmsMidiPacket} (hpkts : Chunked run pkts) {l : List (PlacedCall ⊕ PlacedCall)}
    (hown : (Mealy.lefts l).map (fun call => call.pkt) = pkts.map some)
    (hport : ∀ call ∈ Mealy.lefts l, sendPort? call.refCon = some (ifaceNo, cable))
    (hins : ∀ call ∈ Mealy.rights l, Inserted ifaceNo cable call.toSendCall) {s : Oms}
    (h0 : (s.port (ifaceNo - 1) cable).txCarryLen = 0) :
    let outs := sendHook.outs s (Mealy.merged id l)
    ∃ ps, Encodes cable run ps ∧
      (Mealy.atLefts l outs).flatten = ps.map (.transport ((ifaceNo <<< 8) ||| cable)) ∧
      (∀ x ∈ Mealy.atRights l outs, sendPort? x.1.refCon ≠ some (ifaceNo, cable) →
        ∀ p, .transport ((ifaceNo <<< 8) ||| cable) p ∉ x.2) ∧
      ((sendHook.final s (Mealy.merged id l)).port (ifaceNo - 1) cable).txCarryLen = 0 := by
  have hchunk : ∀ call ∈ Mealy.lefts l, IsChunk ifaceNo cable call.toSendCall := by
    intro call hcall
    have hmem : call.pkt ∈ pkts.map some :=
      hown ▸ List.mem_map_of_mem (f := fun call : PlacedCall => call.pkt) hcall
    obtain ⟨pkt, hp, hpkt⟩ := List.mem_map.1 hmem
    obtain ⟨hsize, hbytes⟩ := hpkts.sized pkt hp
    exact ⟨pkt, hpkt.symm, hport call hcall, hsize, fun hcont => hbytes hcont ▸ hrun⟩
  have hb : (1 ≤ ifaceNo ∧ ifaceNo ≤ omsMaxInterfaces) ∧ cable < omsCables := by
    obtain ⟨call, hcall⟩ : ∃ call, call ∈ Mealy.lefts l := by
      apply List.exists_mem_of_ne_nil _
      intro hnil
      rw [hnil] at hown
      cases hpkts <;> simp at hown
    exact sendPort?_bounds (hport call hcall)
  obtain ⟨h1, h2, h3⟩ := Mealy.run_merged (M := sendHook) (N := rechunker ifaceNo cable)
    (f := PlacedCall.toSendCall) (g := id)
    (R := fun s carry => (s.port (ifaceNo - 1) cable).Carries carry)
    (Q := fun call es => sendPort? call.refCon ≠ some (ifaceNo, cable) →
      ∀ p, .transport ((ifaceNo <<< 8) ||| cable) p ∉ es)
    (fun _ _ _ hc hs => sendHook_chunk hc hs)
    (fun _ _ _ hc hs => sendHook_inserted ⟨hb.1.1, hb.2⟩ hc hs) hchunk hins
    (OmsPort.carries_nil.2 h0)
  have hcalls : ((Mealy.lefts l).map PlacedCall.toSendCall).map SendCall.pkt = pkts.map some := by
    rw [List.map_map]
    exact hown
  obtain ⟨ho, hf⟩ := rechunker_chunks ifaceNo cable hpkts hcalls []
  refine ⟨txRun cable run, ?_, ?_, h2, ?_⟩
  · have hcable : ¬cable > um9MaxCable := by
      exact Nat.not_lt.2 (Nat.le_of_lt_succ hb.2)
    rw [encodes_iff, txRows, if_neg hcable, if_pos hrun]
  · rw [h1]
    exact ho
  · rw [hf] at h3
    exact OmsPort.carries_nil.1 h3

/-- Seven bytes on cable 2 in three chunks.  In between come a Note On of the same cable,
    the start of a run on cable 3 and, for cable 1, a complete SysEx that is said to have
    five bytes. -/
def sevenByteCalls : List (PlacedCall ⊕ PlacedCall) :=
  [.inl ⟨⟨some ⟨omsStartCont, 2, [0xF0, 1, 0, 0], rfl⟩, 0x102⟩, fun _ => 0⟩,
    .inr ⟨⟨some ⟨omsNoCont, 3, [0x90, 0x3C, 0x40, 0], rfl⟩, 0x102⟩, fun _ => 0⟩,
    .inr ⟨⟨some ⟨omsStartCont, 3, [0xF0, 8, 9, 0], rfl⟩, 0x103⟩, fun _ => 0⟩,
    .inl ⟨⟨some ⟨omsMidCont, 3, [2, 3, 4, 0], rfl⟩, 0x102⟩, fun _ => 0⟩,
    .inr ⟨⟨some ⟨omsNoCont, 5, [0xF0, 7, 8, 9], rfl⟩, 0x101⟩, fun _ => 0xF7⟩,
    .inl ⟨⟨some ⟨omsEndCont, 2, [5, 0xF7, 0, 0], rfl⟩, 0x102⟩, fun _ => 0⟩]

theorem sysex_chunks_agree_seven :
    let s := Oms.boot fun _ => .single
    let outs := sendHook.outs s (Mealy.merged id sevenByteCalls)
    (Mealy.atLefts sevenByteCalls outs).flatten =
        [.transport 0x102 ⟨0x24, 0xF0, 1, 2⟩, .transport 0x102 ⟨0x24, 3, 4, 5⟩,
          .transport 0x102 ⟨0x26, 0xF7, 0, 0⟩] ∧
      ((sendHook.final s (Mealy.merged id sevenByteCalls)).port 0 2).txCarryLen = 0 := by
  have hpkts : Chunked [0xF0, 1, 2, 3, 4, 5, 0xF7]
      [⟨omsStartCont, 2, [0xF0, 1, 0, 0], rfl⟩, ⟨omsMidCont, 3, [2, 3, 4, 0], rfl⟩,
        ⟨omsEndCont, 2, [5, 0xF7, 0, 0], rfl⟩] :=
    @Chunked.split ⟨omsStartCont, 2, [0xF0, 1, 0, 0], rfl⟩ [⟨omsMidCont, 3, [2, 3, 4, 0], rfl⟩]
      ⟨omsEndCont, 2, [5, 0xF7, 0, 0], rfl⟩ rfl (by decide) rfl (by decide)
  have hport : ∀ call ∈ Mealy.lefts sevenByteCalls, sendPort? call.refCon = some (1, 2) := by decide
  have hins : ∀ call ∈ Mealy.rights sevenByteCalls, Inserted 1 2 call.toSendCall := by decide
  obtain ⟨ps, h2, h3, -, h4⟩ := sysex_chunks_agree (by decide) hpkts rfl hport hins
    (s := .boot fun _ => .single) rfl
  have hrows : txRows 2 [0xF0, 1, 2, 3, 4, 5, 0xF7] =
      some [⟨0x24, 0xF0, 1, 2⟩, ⟨0x24, 3, 4, 5⟩, ⟨0x26, 0xF7, 0, 0⟩] := by decide
  obtain rfl := Option.some.inj (hrows.symm.trans (encodes_iff.1 h2))
  exact ⟨h3, h4⟩

end Usbmidi9
