/-
  USBMIDI9 — the send hook loses no byte of a SysEx (`oms/oms_tx.c`).

  What a port takes from the chunks that are appended to its carry, and what its packets
  have in them, is kept in an account that begins anew when the carry is dropped
  (`carryFlow`).  `sysex_conserved` is the result: after every run, taken is what was given
  and the carry behind it.
-/
import Usbmidi9.Lib.Account
import Usbmidi9.Oms.Reads

namespace Usbmidi9

/-! ## Packets -/

/-- The carry of a port. -/
def OmsPort.carry (p : OmsPort) : List UInt8 := p.txCarry.take p.txCarryLen

/-- A packet of three bytes that goes on. -/
theorem payload_middle {cable : ℕ} (hc : cable < 16) (a b c : UInt8) (rest : List UInt8) :
    (omsTxPacket cable cinSysexStart (a :: b :: c :: rest) 3).payload = [a, b, c] :=
  EventPacket.payload_ofNibbles hc (by decide) rfl

/-- A flush emits what it is given. -/
theorem omsTxFlush_payload {cable : ℕ} (hc : cable < 16) {l : List UInt8} (h : l ≠ []) :
    (omsTxFlush cable l).flatMap EventPacket.payload = l := by
  fun_induction omsTxFlush cable l with
  | case1 a b c d rest ih =>
    rw [List.flatMap_cons, payload_middle hc, ih (List.cons_ne_nil _ _)]
    rfl
  | case2 last hs =>
    obtain ⟨hcin, hlen⟩ := omsTxEndCin_spec (List.length_pos_iff.2 h) (length_le_three hs)
    rw [List.flatMap_singleton, omsTxPacket, List.take_length,
      EventPacket.payload_ofNibbles hc hcin hlen]

/-- The middle packets and the remainder. -/
theorem omsTxMiddle_payload {cable : ℕ} (hc : cable < 16) (l : List UInt8) :
    (omsTxMiddle cable l).1.flatMap EventPacket.payload ++ (omsTxMiddle cable l).2 = l := by
  fun_induction omsTxMiddle cable l with
  | case1 a b c rest r ih =>
    rw [List.flatMap_cons, payload_middle hc, List.append_assoc, ih]
    rfl
  | case2 rest hs => rfl

/-! ## One chunk -/

section
variable {p : OmsPort} {cable mode len : ℕ} {data : List UInt8} {r : ChunkResult}

/-- **No chunk finds the carry too long.** -/
theorem omsTxSysexChunkBranch_ne (hp : p.CarryOk) :
    omsTxSysexChunkBranch p mode data len ≠ .cannotHappen := by
  have hshort := (hp.begun mode data len).short
  unfold omsTxSysexChunkBranch
  split_ifs with hterm hlen hfull
  · exact nofun
  · exact nofun
  · omega
  · exact nofun

/-- The remainder is stored at the front. -/
theorem carry_store (p : OmsPort) (rest : List UInt8) :
    ({ p with txCarryLen := rest.length, txCarry := rest ++ p.txCarry.drop rest.length } :
      OmsPort).carry = rest := List.take_left

/-- Nothing gets lost between the carry and the packets of a chunk that is appended. -/
theorem omsTxAppend_conserves (hc : cable < 16) {n : UInt32} (h1 : 1 ≤ len)
    (hlen : len ≤ data.length) (h : omsTxAppend p cable mode data len n = some r) :
    p.carry ++ data.take len = r.packets.flatMap EventPacket.payload ++ r.port.carry := by
  have hne : data.take len ≠ [] := by
    refine List.ne_nil_of_length_pos ?_
    rw [List.length_take]
    omega
  rw [omsTxAppend, readArray, readArray, if_pos hlen] at h
  by_cases hold : p.txCarryLen ≤ p.txCarry.length
  swap
  · rw [if_neg hold] at h
    cases h
  rw [if_pos hold] at h
  simp only at h
  split_ifs at h with hend
  · obtain rfl := Option.some.inj h
    rw [omsTxFlush_payload hc (List.append_ne_nil_of_right_ne_nil _ hne)]
    exact (List.append_nil _).symm
  · obtain rfl := Option.some.inj h
    rw [carry_store, omsTxMiddle_payload hc]
    rfl

/-- **Nothing gets lost in a chunk**: what is left of the carry and what is appended are
    emitted or stay in the carry. -/
theorem omsTxSysexChunk_conserves (hp : p.CarryOk) (hc : cable < 16)
    (h : omsTxSysexChunk p cable mode data len = some r) (hdata : data.length = 4) :
    (p.begun mode data len).1.carry ++
        (if omsTxSysexChunkBranch p mode data len = .appended then data.take len else []) =
      r.packets.flatMap EventPacket.payload ++ r.port.carry := by
  have hread : mode = kTxWhole → len ≤ data.length := by
    intro hw
    by_contra hlong
    rw [hw, omsTxSysexChunk_long p cable (by omega) (by omega)] at h
    cases h
  rw [omsTxSysexChunk_branch p cable mode data len hread] at h
  cases hbranch : omsTxSysexChunkBranch p mode data len with
  | unterminated | badLength =>
    rw [hbranch] at h
    obtain rfl := Option.some.inj h
    exact List.append_nil _
  | cannotHappen => exact absurd hbranch (omsTxSysexChunkBranch_ne hp)
  | appended =>
    rw [hbranch] at h
    have hlen : 1 ≤ len ∧ len ≤ 4 := by
      unfold omsTxSysexChunkBranch at hbranch
      split_ifs at hbranch
      omega
    exact omsTxAppend_conserves hc hlen.1 (by omega) h

end

/-! ## One call -/

section
variable {s s' : Oms} {refCon : ℕ}

/-- What a call hands to the transport. -/
def omsTxSendEntries (s : Oms) (pkt : Option OmsMidiPacket) (beyond : TxAccess → UInt8)
    (refCon : ℕ) : List OmsEntry :=
  match sendPort? refCon with
  | none => []
  | some (ifaceNo, cable) => (omsTxSendEmits s pkt beyond refCon).map fun e =>
      .transport ((ifaceNo <<< 8) ||| cable) (e.packet cable)

/-- **A call does nothing outside the shim** but hand over the packets that it emits. -/
theorem omsTxSendCode_trace (s : Oms) (pkt : Option OmsMidiPacket) (beyond : TxAccess → UInt8)
    (refCon : ℕ) :
    (omsTxSendCode s pkt beyond refCon).1.trace =
      s.trace ++ omsTxSendEntries s pkt beyond refCon := by
  unfold omsTxSendEntries omsTxSendEmits
  rcases hport : sendPort? refCon with _ | ⟨ifaceNo, cable⟩
  · rw [omsTxSendCode_ignored beyond (.inr hport)]
    exact (List.append_nil _).symm
  rcases pkt with _ | pkt
  · exact (List.append_nil _).symm
  · rw [omsTxSendCode_port hport]
    simp only [omsTxEmit, Oms.log, List.map_map]
    rfl

end

/-! ## The account of a port -/

/-- The packet of an event that is a SysEx chunk for a port. -/
def OmsEvent.chunk? (i c : ℕ) : OmsEvent → Option OmsMidiPacket
  | .send (some pkt) refCon =>
    if sendPort? refCon = some (i + 1, c) ∧ ¬pkt.Conventional then some pkt else none
  | _ => none

/-- A packet that goes to the transport under a port code. -/
def OmsEntry.packet? (portCode : ℕ) : OmsEntry → Option EventPacket
  | .transport code pkt => if code = portCode then some pkt else none
  | _ => none

/-- The packets that an event sends under a port code. -/
def sentPackets (portCode : ℕ) (s s' : Oms) : List EventPacket :=
  (s'.trace.drop s.trace.length).filterMap (OmsEntry.packet? portCode)

/-- What an event does with the carry of a port.  A chunk that begins a run drops what a
    broken run left; it is taken if it is appended, and its packets are given.  Any other
    event drops a carry that is gone afterwards. -/
def carryFlow (i c : ℕ) (s : Oms) (e : OmsEvent) (s' : Oms) : Flow UInt8 :=
  match e.chunk? i c with
  | some pkt =>
    { dropped := decide ((pkt.mode = kTxStart ∨ pkt.mode = kTxWhole) ∧ (s.port i c).txCarryLen ≠ 0)
      taken :=
        if omsTxSysexChunkBranch (s.port i c) pkt.mode pkt.data pkt.len.toNat = .appended then
          pkt.bytes
        else []
      given := (sentPackets (((i + 1) <<< 8) ||| c) s s').flatMap EventPacket.payload }
  | none =>
    { dropped := decide ((s.port i c).txCarryLen ≠ 0 ∧ (s'.port i c).txCarryLen = 0)
      taken := []
      given := [] }

/-- The account of a port along a run. -/
def sysexAccount (i c : ℕ) (s : Oms) (es : List OmsEvent) : Account UInt8 :=
  Account.empty.along omsStep (carryFlow i c) s es

theorem OmsPort.carry_of_len {p : OmsPort} (h : p.txCarryLen = 0) : p.carry = [] := by
  rw [carry, h, List.take_zero]

/-- A chunk goes on with the carry, or with none if it begins a run. -/
theorem OmsPort.begun_carry (p : OmsPort) (mode : ℕ) (data : List UInt8) (len : ℕ) :
    (p.begun mode data len).1.carry =
      if (mode = kTxStart ∨ mode = kTxWhole) ∧ p.txCarryLen ≠ 0 then [] else p.carry := by
  unfold begun
  split_ifs with hbad hdrop hdrop
  · exact carry_of_len rfl
  · have hzero : p.txCarryLen = 0 := by
      by_contra hne
      exact hdrop ⟨hbad.1, hne⟩
    rw [carry_of_len hzero]
    exact carry_of_len rfl
  · exact absurd ⟨hdrop.1, .inl hdrop.2⟩ hbad
  · rfl

section
variable {s s' : Oms} {i c : ℕ}

/-- **An event without a chunk for the port** keeps or drops its carry. -/
theorem carryMoved_of_other {e : OmsEvent} (he : e.chunk? i c = none)
    (h : omsStep s e = some s') : (s.port i c).CarryMoved (s'.port i c) := by
  by_cases hsend : ∃ pkt refCon, e = .send pkt refCon
  swap
  · exact CarriesMoved.step (fun pkt refCon heq => hsend ⟨pkt, refCon, heq⟩) h i c
  obtain ⟨pkt, refCon, rfl⟩ := hsend
  have hignored : pkt = none ∨ sendPort? refCon = none → (s.port i c).CarryMoved (s'.port i c) := by
    intro hno
    rw [omsStep, omsTxSend_ignored hno] at h
    exact Option.some.inj h ▸ .refl _
  rcases pkt with _ | pkt
  · exact hignored (.inl rfl)
  rcases hport : sendPort? refCon with _ | ⟨ifaceNo, cable⟩
  · exact hignored (.inr hport)
  rw [omsStep, omsTxSend_port hport] at h
  split_ifs at h with hpkt
  · exact Option.some.inj h ▸ CarriesMoved.message s ifaceNo cable pkt i c
  · obtain ⟨r, -, hsent⟩ := omsTxChunk_sent h
    obtain ⟨⟨h1, -⟩, -⟩ := sendPort?_bounds hport
    have hne : (i, c) ≠ (ifaceNo - 1, cable) := by
      intro hic
      obtain ⟨rfl, rfl⟩ := Prod.mk.inj hic
      have hown : sendPort? refCon = some (ifaceNo - 1 + 1, c) := by
        rw [hport, Nat.sub_add_cancel h1]
      simp [OmsEvent.chunk?, hown, hpkt] at he
    rw [hsent.others i c hne]
    exact .refl _

theorem chunk?_eq_some {e : OmsEvent} {pkt : OmsMidiPacket} (h : e.chunk? i c = some pkt) :
    ∃ refCon, e = .send (some pkt) refCon ∧ sendPort? refCon = some (i + 1, c) ∧
      ¬pkt.Conventional := by
  unfold OmsEvent.chunk? at h
  split at h
  · rename_i pkt' refCon
    split_ifs at h with hown
    obtain rfl := Option.some.inj h
    exact ⟨refCon, rfl, hown⟩
  · cases h

/-- **Every event is balanced.** -/
theorem carryFlow_balanced (hs : ∀ i c, (s.port i c).CarryOk) {e : OmsEvent}
    (h : omsStep s e = some s') :
    (carryFlow i c s e s').Balanced (s.port i c).carry (s'.port i c).carry := by
  unfold carryFlow
  rcases he : e.chunk? i c with _ | pkt
  · unfold Flow.Balanced
    cases carryMoved_of_other he h with
    | kept hlen hcarry =>
      simp [OmsPort.carry, hlen, hcarry]
    | dropped hlen _ =>
      by_cases hzero : (s.port i c).txCarryLen = 0
      · simp [hzero, hlen, OmsPort.carry]
      · simp [hzero, hlen, OmsPort.carry]
  · obtain ⟨refCon, rfl, hport, hpkt⟩ := chunk?_eq_some he
    have hchunk : omsTxChunk s (i + 1) c pkt.mode pkt = some s' := by
      rw [omsStep, omsTxSend_port hport, if_neg hpkt] at h
      exact h
    obtain ⟨r, hr, hsent⟩ := omsTxChunk_sent hchunk
    obtain ⟨-, hc⟩ := sendPort?_bounds hport
    have hsentPackets : sentPackets (((i + 1) <<< 8) ||| c) s s' = r.packets := by
      rw [sentPackets, hsent.trace, List.drop_left, List.filterMap_map]
      simp [Function.comp_def, OmsEntry.packet?]
    have hconserved := omsTxSysexChunk_conserves (hs i c) hc hr pkt.size
    have hport' : s'.port i c = r.port := hsent.port
    unfold Flow.Balanced
    rw [hsentPackets, hport']
    rw [OmsPort.begun_carry] at hconserved
    simpa only [decide_eq_true_eq, OmsMidiPacket.bytes] using hconserved

/-! ## Runs -/

/-- What every call keeps to: the index of the local carry and the branches of
    `oms_tx_sysex_chunk`, the bytes of a packet that goes on and of one that ends a SysEx.
    The packets are what the transport is handed. -/
structure SendSafe (s : Oms) (pkt : Option OmsMidiPacket) (refCon : ℕ) : Prop where
  index : ∀ beyond n, .carry n ∈ omsTxSendAccesses s pkt beyond refCon → n < 6
  possible : ∀ p ∈ pkt, ∀ ifaceNo cable, sendPort? refCon = some (ifaceNo, cable) →
    omsTxSysexChunkBranch (s.port (ifaceNo - 1) cable) p.mode p.data p.len.toNat ≠ .cannotHappen
  middle : ∀ beyond, ∀ e ∈ omsTxSendEmits s pkt beyond refCon, e.cin = cinSysexStart →
    e.len = 3 ∧ e.data.length = 3
  last : ∀ beyond, ∀ e ∈ omsTxSendEmits s pkt beyond refCon,
    e.cin = cinSysexEnd1 ∨ e.cin = cinSysexEnd2 ∨ e.cin = cinSysexEnd3 →
      1 ≤ e.len ∧ e.len ≤ 3 ∧ e.data.length = e.len
  result : ∃ s', omsTxSend s pkt refCon = some s' ∧
    ∀ beyond, s'.trace = s.trace ++ omsTxSendEntries s pkt beyond refCon

theorem SendSafe.of_len {pkt : Option OmsMidiPacket} {refCon : ℕ}
    (hs : ∀ i c, (s.port i c).CarryOk) (hlen : ∀ p ∈ pkt, p.len ≤ 4) : SendSafe s pkt refCon := by
  have hshort : ¬Overlong pkt refCon := by
    rintro ⟨p, hp, -, -, -, h4⟩
    exact absurd h4 (UInt8.not_lt.2 (hlen p hp))
  have hfull : ∀ beyond, ∀ e ∈ omsTxSendEmits s pkt beyond refCon, e.Full :=
    fun beyond e he => omsTxSendCode_ok hs hshort beyond _ (mem_emitted.1 he)
  have hsame : ∀ beyond, omsTxSend s pkt refCon = some (omsTxSendCode s pkt beyond refCon).1 :=
    omsTxSend_code hs hshort
  refine ⟨?_, ?_, ?_, ?_, _, hsame fun _ => 0, ?_⟩
  · exact fun beyond n hn => (omsTxSendAccesses_inBounds_iff hs pkt beyond).2 hshort _ hn
  · exact fun p _ ifaceNo cable _ => omsTxSysexChunkBranch_ne (hs _ _)
  · intro beyond e he hcin
    have hlen : e.len = 3 := by
      rw [(hfull beyond e he).len, hcin]
      rfl
    exact ⟨hlen, (hfull beyond e he).data.trans hlen⟩
  · intro beyond e he hcin
    rw [(hfull beyond e he).data, (hfull beyond e he).len]
    rcases hcin with hcin | hcin | hcin <;> rw [hcin] <;> decide
  · intro beyond
    rw [Option.some.inj ((hsame _).symm.trans (hsame beyond)), omsTxSendCode_trace]

/-- **The send hook loses no byte of a SysEx.**  After every run no carry has more than two
    bytes, and every call with at most four bytes is safe.  From then on, what a port takes
    since its carry was last empty, or dropped, is what its packets have and its carry. -/
theorem sysex_conserved {drivers : ℕ → ClassDriver}
    (h : Reach omsStep (fun _ _ => True) (.boot drivers) s) :
    (∀ i c, (s.port i c).txCarryLen ≤ 2) ∧
      (∀ pkt refCon, (∀ p ∈ pkt, p.len ≤ 4) → SendSafe s pkt refCon) ∧
      ∀ i c, (s.port i c).txCarryLen = 0 → ∀ es s', runEvents omsStep s es = some s' →
        (sysexAccount i c s es).taken = (sysexAccount i c s es).given ++ (s'.port i c).carry := by
  have hs := CarriesKept.reach h
  refine ⟨fun i c => (hs i c).short, fun pkt refCon => .of_len hs, ?_⟩
  intro i c hempty es s' hrun
  have hkept : ∀ s e s', (∀ i c, (s.port i c).CarryOk) → omsStep s e = some s' →
      ∀ i c, (s'.port i c).CarryOk :=
    fun s e s' hs hst i c => CarriesKept.step hst i c (hs i c)
  have hflow : ∀ s e s', (∀ i c, (s.port i c).CarryOk) → omsStep s e = some s' →
      (carryFlow i c s e s').Balanced (s.port i c).carry (s'.port i c).carry :=
    fun s e s' hs hst => carryFlow_balanced hs hst
  have hbegin : Account.empty.Balanced (s.port i c).carry := by
    rw [OmsPort.carry_of_len hempty]
    exact Account.balanced_empty
  exact Account.Balanced.along hkept hflow hs hrun hbegin

/-- A SysEx in chunks, after the second of them. -/
theorem sysex_conserved_run :
    let es := carryEvents ++ [.send (some ⟨omsMidCont, 3, [1, 2, 3, 0], rfl⟩) 0x0100]
    let a := sysexAccount 0 0 (.boot fun _ => .single) es
    ((afterEvents es).port 0 0).txCarryLen ≤ 2 ∧
      SendSafe (.boot fun _ => .single) (some sysexBegin) 0x0100 ∧
      a.taken = a.given ++ ((afterEvents es).port 0 0).carry ∧
      a = ⟨[0xF0, 0x41, 1, 2, 3], [0xF0, 0x41, 1]⟩ := by
  intro es a
  have hrun : runEvents omsStep (.boot fun _ => .single) es = some (afterEvents es) := rfl
  have hreach : Reach omsStep (fun _ _ => True) (.boot fun _ => .single) (afterEvents es) :=
    .of_run runOk_true hrun
  have hboot : Reach omsStep (fun _ _ => True) (.boot fun _ => .single)
      (.boot fun _ => .single) := .refl
  obtain ⟨-, hsafe, haccount⟩ := sysex_conserved hboot
  refine ⟨(sysex_conserved hreach).1 0 0, hsafe _ _ ?_, haccount 0 0 rfl es _ hrun, ?_⟩
  · rintro p ⟨⟩
    decide
  · decide +kernel

end

end Usbmidi9
