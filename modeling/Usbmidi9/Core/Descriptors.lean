/-
  USBMIDI9 — walking USB descriptors (`core/descriptors.h`,
  `core/descriptors.c`).

  A descriptor begins with its length and its type.  `um9DescIterNext` is the
  walker's step, `um9DescU8` and `um9DescU16le` its field readers, over a buffer
  that may be NULL.

  `Desc` is a well-formed descriptor, and `descriptors` cuts a buffer into those
  that it begins with.  `um9DescIterNext_spec` says that the walker visits them
  in turn, and what it sees of each.
-/
import Mathlib

namespace Usbmidi9

/-! ## Constants -/

/-- Descriptor types: `UM9_DT_DEVICE` … `UM9_DT_CS_ENDPOINT`. -/
abbrev dtDevice : ℕ := 0x01
abbrev dtConfig : ℕ := 0x02
abbrev dtInterface : ℕ := 0x04
abbrev dtEndpoint : ℕ := 0x05
abbrev dtCsInterface : ℕ := 0x24
abbrev dtCsEndpoint : ℕ := 0x25

/-- `UM9_AUDIO_CLASS` and `UM9_MIDISTREAMING_SUBCLASS`. -/
abbrev audioClass : ℕ := 0x01
abbrev midiStreamingSubclass : ℕ := 0x03

/-- Descriptor subtypes: `UM9_MS_HEADER`, `UM9_MS_MIDI_IN_JACK`,
    `UM9_MS_MIDI_OUT_JACK` and `UM9_MS_GENERAL`. -/
abbrev msHeader : ℕ := 0x01
abbrev msMidiInJack : ℕ := 0x02
abbrev msMidiOutJack : ℕ := 0x03
abbrev msGeneral : ℕ := 0x01

/-- `UM9_EP_DIR_IN`. -/
abbrev epDirIn : ℕ := 0x80

/-! ## The walker -/

/-- `UM9_DESC_ERR_NONE`, `UM9_DESC_ERR_TRUNCATED` and `UM9_DESC_ERR_ZERO_LEN`. -/
inductive DescErr where
  | none
  | truncated
  | zeroLen
deriving DecidableEq, Repr

/-- `um9_desc_iter`; `buf` is `none` if it is NULL. -/
structure DescIter where
  buf : Option (List UInt8)
  len : ℕ
  pos : ℕ
  off : ℕ
  blen : ℕ
  btype : ℕ
  err : DescErr
deriving DecidableEq, Repr

/-- `um9_desc_iter_init`. -/
def um9DescIterInit (buf : Option (List UInt8)) (len : ℕ) : DescIter := ⟨buf, len, 0, 0, 0, 0, .none⟩

/-- `um9_desc_iter_next`. -/
def um9DescIterNext (it : DescIter) : DescIter × Bool :=
  if it.err ≠ .none then (it, false)
  else match it.buf with
  | none => if it.pos < it.len then ({ it with err := .truncated }, false) else (it, false)
  | some buf =>
    if it.len ≤ it.pos then (it, false)
    else if it.len - it.pos < 2 then ({ it with err := .truncated }, false)
    else
      let blen := (buf.getD it.pos 0).toNat
      if blen < 2 then ({ it with err := .zeroLen }, false)
      else if it.len - it.pos < blen then ({ it with err := .truncated }, false)
      else
        ({ it with
          off := it.pos
          blen := blen
          btype := (buf.getD (it.pos + 1) 0).toNat
          pos := it.pos + blen }, true)

/-- `um9_desc_u8`. -/
def um9DescU8 (it : DescIter) (relOff : ℕ) : ℕ :=
  match it.buf with
  | none => 0
  | some buf => if it.blen ≤ relOff then 0 else (buf.getD (it.off + relOff) 0).toNat

/-- `um9_desc_u16le`. -/
def um9DescU16le (it : DescIter) (relOff : ℕ) : ℕ :=
  match it.buf with
  | none => 0
  | some buf =>
    if it.blen ≤ relOff ∨ it.blen ≤ relOff + 1 then 0
    else (buf.getD (it.off + relOff) 0).toNat ||| ((buf.getD (it.off + relOff + 1) 0).toNat <<< 8)

/-! ## Descriptors -/

/-- A well-formed descriptor: `bLength` is its length and at least 2. -/
structure Desc where
  bytes : List UInt8
  two_le : 2 ≤ bytes.length
  length_eq : (bytes.getD 0 0).toNat = bytes.length

namespace Desc
variable (d : Desc)

/-- `bLength` and `bDescriptorType`. -/
def blen : ℕ := d.bytes.length
def btype : ℕ := (d.bytes.getD 1 0).toNat

/-- The byte at an offset. -/
def u8 (relOff : ℕ) : ℕ := (d.bytes.getD relOff 0).toNat

/-- A walker that stands at the descriptor. -/
def iter : DescIter := ⟨some d.bytes, d.blen, d.blen, 0, d.blen, d.btype, .none⟩

theorem um9DescU8_iter (relOff : ℕ) : um9DescU8 d.iter relOff = d.u8 relOff := by
  simp only [um9DescU8, iter, Nat.zero_add, u8, blen]
  split_ifs with h
  · rw [List.getD_eq_default _ _ h]
    rfl
  · rfl

end Desc

/-- The descriptor that a buffer begins with. -/
def Desc.ofBytes? (bytes : List UInt8) : Option Desc :=
  if h : 2 ≤ (bytes.getD 0 0).toNat ∧ (bytes.getD 0 0).toNat ≤ bytes.length then
    some ⟨bytes.take (bytes.getD 0 0).toNat,
      by rw [List.length_take]; omega,
      by
        have hlen : 0 < (bytes.getD 0 0).toNat := by omega
        rw [List.length_take, Nat.min_eq_left h.2, List.getD_eq_getElem?_getD,
          List.getElem?_take_of_lt hlen, ← List.getD_eq_getElem?_getD]⟩
  else none

namespace Desc
variable {bytes : List UInt8} {d : Desc}

theorem ofBytes?_eq_some (h : ofBytes? bytes = some d) :
    d.blen = (bytes.getD 0 0).toNat ∧ 2 ≤ d.blen ∧ d.blen ≤ bytes.length ∧
      d.bytes = bytes.take d.blen := by
  unfold ofBytes? at h
  split_ifs at h with hlen
  have hbytes : d.bytes = bytes.take (bytes.getD 0 0).toNat := by rw [← Option.some.inj h]
  have hblen : d.blen = (bytes.getD 0 0).toNat := by
    rw [blen, hbytes, List.length_take, Nat.min_eq_left hlen.2]
  rw [hblen]
  exact ⟨rfl, hlen.1, hlen.2, hbytes⟩

theorem ofBytes?_drop (h : ofBytes? bytes = some d) :
    (bytes.drop d.blen).length < bytes.length := by
  obtain ⟨-, h2, hle, -⟩ := ofBytes?_eq_some h
  rw [List.length_drop]
  omega

theorem ofBytes?_eq_none (h : ofBytes? bytes = none) :
    (bytes.getD 0 0).toNat < 2 ∨ bytes.length < (bytes.getD 0 0).toNat := by
  unfold ofBytes? at h
  split_ifs at h with hlen
  omega

end Desc

/-- The well-formed descriptors that a buffer begins with, one after the other, and
    whether they are followed by a malformed one. -/
def descriptors (bytes : List UInt8) : List Desc × Bool :=
  match h : Desc.ofBytes? bytes with
  | some d =>
    have _hlt := Desc.ofBytes?_drop h
    (d :: (descriptors (bytes.drop d.blen)).1, (descriptors (bytes.drop d.blen)).2)
  | none => ([], !bytes.isEmpty)
termination_by bytes.length
decreasing_by all_goals exact _hlt

theorem descriptors_some {bytes : List UInt8} {d : Desc} (h : Desc.ofBytes? bytes = some d) :
    descriptors bytes =
      (d :: (descriptors (bytes.drop d.blen)).1, (descriptors (bytes.drop d.blen)).2) := by
  rw [descriptors]
  split <;> simp_all

theorem descriptors_none {bytes : List UInt8} (h : Desc.ofBytes? bytes = none) :
    descriptors bytes = ([], !bytes.isEmpty) := by
  rw [descriptors]
  split <;> simp_all

/-! ## The walk -/

/-- A walker that is about to read `tail`. -/
structure DescIter.Before (it : DescIter) (tail : List UInt8) : Prop where
  err : it.err = .none
  buf : ∃ buf, it.buf = some buf ∧ it.len = buf.length ∧ it.pos ≤ buf.length ∧
    tail = buf.drop it.pos

/-- A walker that stands at a descriptor. -/
structure DescIter.At (it : DescIter) (d : Desc) : Prop where
  btype : it.btype = d.btype
  blen : it.blen = d.blen
  u8 : ∀ relOff, um9DescU8 it relOff = um9DescU8 d.iter relOff
  u16le : ∀ relOff, um9DescU16le it relOff = um9DescU16le d.iter relOff

theorem um9DescIterInit_before (bytes : List UInt8) :
    (um9DescIterInit (some bytes) bytes.length).Before bytes :=
  ⟨rfl, bytes, rfl, rfl, Nat.zero_le _, rfl⟩

/-- **One step of the walk**: the next descriptor, or the end with an error unless
    the buffer is used up. -/
theorem um9DescIterNext_spec {it : DescIter} {tail : List UInt8} (h : it.Before tail) :
    match Desc.ofBytes? tail with
    | some d => (um9DescIterNext it).2 = true ∧ (um9DescIterNext it).1.At d ∧
        (um9DescIterNext it).1.Before (tail.drop d.blen)
    | none => (um9DescIterNext it).2 = false ∧
        ((um9DescIterNext it).1.err = .none ↔ tail = []) := by
  obtain ⟨herr, buf, hbuf, hlen, hpos, rfl⟩ := h
  have hget : ∀ n, (buf.drop it.pos).getD n 0 = buf.getD (it.pos + n) 0 := by
    intro n
    rw [List.getD_eq_getElem?_getD, List.getElem?_drop, ← List.getD_eq_getElem?_getD]
  have hrest : (buf.drop it.pos).length = buf.length - it.pos := List.length_drop
  have hnil : buf.drop it.pos = [] ↔ buf.length ≤ it.pos := List.drop_eq_nil_iff
  unfold um9DescIterNext
  rw [if_neg (not_not.2 herr), hbuf]
  simp only [hlen]
  rcases hd : Desc.ofBytes? (buf.drop it.pos) with _ | d
  · have hbad := Desc.ofBytes?_eq_none hd
    rw [hget, Nat.add_zero, hrest] at hbad
    simp only [hnil]
    split_ifs with h1 h2 h3 h4
    · exact ⟨rfl, iff_of_true herr h1⟩
    · exact ⟨rfl, iff_of_false (by simp) h1⟩
    · exact ⟨rfl, iff_of_false (by simp) h1⟩
    · exact ⟨rfl, iff_of_false (by simp) h1⟩
    · omega
  · obtain ⟨hblen, htwo, hle, hbytes⟩ := Desc.ofBytes?_eq_some hd
    rw [hget, Nat.add_zero] at hblen
    rw [hrest] at hle
    rw [if_neg (by omega), if_neg (by omega), ← hblen, if_neg (by omega), if_neg (by omega)]
    have hread : ∀ n < d.blen, d.bytes.getD n 0 = buf.getD (it.pos + n) 0 := by
      intro n hn
      rw [hbytes, List.getD_eq_getElem?_getD, List.getElem?_take_of_lt hn,
        ← List.getD_eq_getElem?_getD, hget]
    refine ⟨rfl, ⟨?_, rfl, ?_, ?_⟩, herr, buf, rfl, rfl, ?_, ?_⟩
    · show _ = (d.bytes.getD 1 0).toNat
      rw [hread 1 (by omega)]
    · intro n
      simp only [um9DescU8, Desc.iter, Nat.zero_add]
      split_ifs with hn
      · rfl
      · rw [hread n (by omega)]
    · intro n
      simp only [um9DescU16le, Desc.iter, Nat.zero_add]
      split_ifs with hn
      · rfl
      · rw [hread n (by omega), hread (n + 1) (by omega), Nat.add_assoc]
    · show it.pos + d.blen ≤ buf.length
      omega
    · rw [List.drop_drop]

end Usbmidi9
