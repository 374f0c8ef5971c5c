/-
  USBMIDI9 — what `um9_ms_parse` answers for a whole buffer (`core/ports.c`).

  The walk stops behind the first MIDIStreaming interface, so a malformed descriptor
  further on is not met: `um9MsParse_verdict_iff` says for which buffers the answer is
  the documented one.

  Every device descriptor before that interface stores its identity, so the last one
  stays (`um9MsParse_identity`); `um9MsParse_firstIdentity_iff` compares it with the
  first, which is documented.
-/
import Usbmidi9.Core.Ports
import Usbmidi9.Core.Walk

namespace Usbmidi9

/-! ## The verdict -/

/-- The buffer is a concatenation of descriptors. -/
def WellFormed (bytes : List UInt8) : Prop := ∃ ds : List Desc, bytes = ds.flatMap Desc.bytes

theorem wellFormed_iff (bytes : List UInt8) : WellFormed bytes ↔ (descriptors bytes).2 = false := by
  obtain ⟨rest, htile, hrest⟩ := descriptors_tile bytes
  have hend := descriptors_append (descriptors bytes).1 rest
  rw [← htile, descriptors_none hrest] at hend
  have hwell : WellFormed bytes ↔ rest = [] := by
    rw [← Desc.exists_flatMap_iff hrest, ← htile]
    rfl
  rw [hwell, congrArg Prod.snd hend, Bool.not_eq_false', List.isEmpty_iff]

/-- A malformed descriptor comes after a descriptor that ends the first MIDIStreaming
    interface. -/
def MalformedBehind (bytes : List UInt8) : Prop :=
  ¬WellFormed bytes ∧ ∃ d ∈ afterMsInterface (descriptors bytes).1, d.Ends

theorem um9MsParse_ret (buf : Option (List UInt8)) (len : ℕ) :
    (um9MsParse buf len).2 = 1 ↔ ¬(um9MsParse buf len).2 = 0 := by
  unfold um9MsParse
  simp only
  split_ifs <;> simp

/-- Without a buffer there is nothing to read. -/
theorem um9MsParse_null (len : ℕ) : (um9MsParse none len).2 = 1 ↔ len = 0 := by
  have hnext : um9DescIterNext (um9DescIterInit none len) =
      if 0 < len then ({ um9DescIterInit none len with err := .truncated }, false)
      else (um9DescIterInit none len, false) := rfl
  unfold um9MsParse um9MsLoop
  rw [hnext]
  by_cases hlen : 0 < len
  · rw [if_pos hlen]
    exact iff_of_false (by simp) hlen.ne'
  · rw [if_neg hlen]
    exact iff_of_true rfl (Nat.eq_zero_of_not_pos hlen)

/-- **`um9_ms_parse` accepts exactly the well-formed buffers**, and a NULL one of no
    length, unless a malformed descriptor comes behind the MIDIStreaming interface. -/
theorem um9MsParse_verdict_iff (bytes : List UInt8) (len : ℕ) :
    ((um9MsParse none len).2 = 1 ↔ len = 0) ∧
      (((um9MsParse (some bytes) bytes.length).2 = 1 ↔ WellFormed bytes) ↔
        ¬MalformedBehind bytes) := by
  refine ⟨um9MsParse_null len, ?_⟩
  have hret := (um9MsParse_spec bytes).2
  have hwell := wellFormed_iff bytes
  have hmalformed : (descriptors bytes).2 = true ↔ ¬WellFormed bytes := by
    rw [hwell, Bool.not_eq_false]
  rw [um9MsParse_ret, hret, MeetsMalformed, MalformedBehind, hmalformed]
  constructor
  · rintro hiff ⟨hbad, d, hmem, hends⟩
    exact hbad (hiff.1 fun hmeets => hmeets.2 d hmem hends)
  · intro hbehind
    constructor
    · intro hmeets
      by_contra hbad
      refine hmeets ⟨hbad, fun d hmem hends => hbehind ⟨hbad, d, hmem, hends⟩⟩
    · exact fun hgood hmeets => hmeets.1 hgood

/-- **A malformed descriptor is accepted** behind the interface: here a second interface
    descriptor and a byte that begins none. -/
theorem not_um9MsParse_verdict :
    ¬((um9MsParse (some [9, 4, 1, 0, 0, 1, 3, 0, 0, 9, 4, 2, 0, 0, 3, 0, 0, 0, 0]) 19).2 = 1 ↔
      WellFormed [9, 4, 1, 0, 0, 1, 3, 0, 0, 9, 4, 2, 0, 0, 3, 0, 0, 0, 0]) := by
  intro h
  have hwell := h.1 (by decide)
  let ms : Desc := ⟨[9, 4, 1, 0, 0, 1, 3, 0, 0], by decide, by decide⟩
  let other : Desc := ⟨[9, 4, 2, 0, 0, 3, 0, 0, 0], by decide, by decide⟩
  have hiff : (∃ all : List Desc, [ms, other].flatMap Desc.bytes ++ [0] = all.flatMap Desc.bytes) ↔
      ([0] : List UInt8) = [] := Desc.exists_flatMap_iff rfl
  exact absurd (hiff.1 hwell) (by decide)

/-! ## Identity -/

namespace Desc

/-- A standard device descriptor. -/
def Device (d : Desc) : Prop := d.btype = dtDevice ∧ 18 ≤ d.blen

instance : DecidablePred Device := fun _ => inferInstanceAs (Decidable (_ ∧ _))

/-- A little-endian field. -/
def u16le (d : Desc) (relOff : ℕ) : ℕ := d.u8 relOff + 256 * d.u8 (relOff + 1)

/-- idVendor and idProduct. -/
def identity (d : Desc) : ℕ × ℕ := (d.u16le 8, d.u16le 10)

theorem um9DescU16le_iter (d : Desc) {relOff : ℕ} (h : relOff + 1 < d.blen) :
    um9DescU16le d.iter relOff = d.u16le relOff := by
  have hlt : (d.bytes.getD relOff 0).toNat < 2 ^ 8 := UInt8.toNat_lt _
  have hinside : ¬(d.blen ≤ relOff ∨ d.blen ≤ relOff + 1) := by omega
  simp only [um9DescU16le, iter, Nat.zero_add, if_neg hinside, u16le, u8]
  rw [Nat.or_comm, ← Nat.shiftLeft_add_eq_or_of_lt hlt, Nat.shiftLeft_eq, Nat.add_comm,
    Nat.mul_comm]

end Desc

/-- The device descriptors before the first MIDIStreaming interface. -/
def devices (ds : List Desc) : List Desc :=
  (ds.takeWhile fun d => ¬d.MsInterface).filter fun d => d.Device

/-- The identity that is recorded. -/
def Um9MsInfo.identity (out : Um9MsInfo) : ℕ × ℕ := (out.vid, out.pid)

theorem um9MsStepOutside_identity (st : MsScan) (d : Desc) :
    (um9MsStepOutside st d.iter).out.identity =
      if d.Device then d.identity else st.out.identity := by
  have hbtype : d.iter.btype = d.btype := rfl
  have hblen : d.iter.blen = d.blen := rfl
  unfold um9MsStepOutside
  simp only [hbtype, hblen]
  by_cases hd : d.Device
  · have hlong := hd.2
    have hvid : um9DescU16le d.iter 8 = d.u16le 8 := d.um9DescU16le_iter (by omega)
    have hpid : um9DescU16le d.iter 10 = d.u16le 10 := d.um9DescU16le_iter (by omega)
    rw [if_pos hd, if_pos (show d.btype = dtDevice ∧ 18 ≤ d.blen from hd), hvid, hpid]
    rfl
  · rw [if_neg hd, if_neg (show ¬(d.btype = dtDevice ∧ 18 ≤ d.blen) from hd)]
    split_ifs <;> rfl

theorem um9MsStepCsInterface_identity (out : Um9MsInfo) (it : DescIter) :
    (um9MsStepCsInterface out it).identity = out.identity := by
  unfold um9MsStepCsInterface um9MsAddJack
  simp only
  split_ifs <;> rfl

theorem um9MsStepCsEndpoint_identity (st : MsScan) (it : DescIter) :
    (um9MsStepCsEndpoint st it).identity = st.out.identity := by
  unfold um9MsStepCsEndpoint um9MsAddEndpoint
  simp only
  split_ifs <;> rfl

/-- In the MIDIStreaming interface no identity is stored. -/
theorem um9MsStep_identity {st st' : MsScan} (h : st.inMs = true) {it : DescIter}
    (hs : um9MsStep st it = some st') : st'.inMs = true ∧ st'.out.identity = st.out.identity := by
  unfold um9MsStep at hs
  rw [if_neg (by rw [h]; decide)] at hs
  split_ifs at hs
  · cases hs
    exact ⟨h, rfl⟩
  · cases hs
    exact ⟨h, um9MsStepCsInterface_identity st.out it⟩
  · cases hs
    exact ⟨h, um9MsStepCsEndpoint_identity st it⟩
  · cases hs
    exact ⟨h, rfl⟩

theorem msScan_inside_identity {st : MsScan} (h : st.inMs = true) (ds : List Desc) :
    (msScan st ds).1.out.identity = st.out.identity := by
  induction ds generalizing st with
  | nil => rfl
  | cons d ds ih =>
    unfold msScan
    rcases hs : um9MsStep st d.iter with _ | st'
    · rfl
    · obtain ⟨hin, hsame⟩ := um9MsStep_identity h hs
      exact (ih hin).trans hsame

/-- **The last device descriptor** before the MIDIStreaming interface stays. -/
theorem msScan_identity {st : MsScan} (h : st.inMs = false) (ds : List Desc) :
    (msScan st ds).1.out.identity =
      ((devices ds).getLast?.map Desc.identity).getD st.out.identity := by
  induction ds generalizing st with
  | nil => rfl
  | cons d ds ih =>
    have hin := (um9MsStepOutside_spec st d).2.2
    rw [h, Bool.false_or] at hin
    have hstep : msScan st (d :: ds) = msScan (um9MsStepOutside st d.iter) ds := by
      rw [msScan, um9MsStep, if_pos h]
    have hidentity := um9MsStepOutside_identity st d
    rw [hstep]
    by_cases hms : d.MsInterface
    · have hnone : devices (d :: ds) = [] := by simp [devices, hms]
      have hother : ¬d.Device := by
        rintro ⟨hdevice, -⟩
        rw [hms.1] at hdevice
        exact absurd hdevice (by decide)
      rw [hnone, msScan_inside_identity (hin.trans (decide_eq_true hms)), hidentity, if_neg hother]
      rfl
    · rw [ih (hin.trans (decide_eq_false hms)), hidentity]
      by_cases hd : d.Device
      · have hcons : devices (d :: ds) = d :: devices ds := by simp [devices, hms, hd]
        rw [hcons, if_pos hd, List.getLast?_cons]
        cases (devices ds).getLast? with
        | none => rfl
        | some last => rfl
      · have hcons : devices (d :: ds) = devices ds := by simp [devices, hms, hd]
        rw [hcons, if_neg hd]

theorem um9MsParse_identity (bytes : List UInt8) :
    (um9MsParse (some bytes) bytes.length).1.identity =
      ((devices (descriptors bytes).1).getLast?.map Desc.identity).getD (0, 0) := by
  have hout := (um9MsLoop_spec (um9DescIterInit_before bytes) (Nat.lt_succ_self _)
    ⟨.zero, false, 0, 0, 0⟩).1
  have hstart : (⟨.zero, false, 0, 0, 0⟩ : MsScan).inMs = false := rfl
  have hscan := msScan_identity hstart (descriptors bytes).1
  rw [← hout] at hscan
  exact hscan

/-- **The identity of the first device descriptor** is recorded exactly if the last one
    before the MIDIStreaming interface has the same. -/
theorem um9MsParse_firstIdentity_iff (ds : List Desc) :
    (um9MsParse (some (ds.flatMap Desc.bytes)) (ds.flatMap Desc.bytes).length).1.identity =
        ((devices ds).head?.map Desc.identity).getD (0, 0) ↔
      (devices ds).getLast?.map Desc.identity = (devices ds).head?.map Desc.identity := by
  have hall := descriptors_append ds []
  rw [List.append_nil, descriptors_none (show Desc.ofBytes? [] = none from rfl),
    List.append_nil] at hall
  rw [um9MsParse_identity, hall]
  cases devices ds with
  | nil => exact iff_of_true rfl rfl
  | cons d rest =>
    rw [List.getLast?_cons, List.head?_cons]
    exact Option.some_inj.symm

/-- A MIDIStreaming interface behind two device descriptors. -/
def twoDevices : List Desc :=
  [[18, 1, 0, 2, 0, 0, 0, 8, 52, 18, 1, 0, 0, 1, 0, 0, 0, 1],
    [18, 1, 0, 2, 0, 0, 0, 8, 120, 86, 2, 0, 0, 1, 0, 0, 0, 1],
    [9, 4, 1, 0, 0, 1, 3, 0, 0]].filterMap Desc.ofBytes?

/-- **The second device descriptor replaces the first one's identity.** -/
theorem not_um9MsParse_firstIdentity :
    ¬(um9MsParse (some (twoDevices.flatMap Desc.bytes))
        (twoDevices.flatMap Desc.bytes).length).1.identity =
      ((devices twoDevices).head?.map Desc.identity).getD (0, 0) := by
  decide

end Usbmidi9
