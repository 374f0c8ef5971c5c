/-
  Instruction words with an opcode, two registers and an immediate.

  In the D-form of the PowerPC the highest six bits of a word are the opcode, then come two
  registers of five bits, and the lowest sixteen bits are the immediate.  Every word can be
  read in this form, in one way (`DForm.ofWord_word`, `DForm.word_ofWord`).
-/
import Mathlib

namespace Usbmidi9

/-- The fields of a word, from the highest. -/
structure DForm where
  op : Fin 64
  d : Fin 32
  a : Fin 32
  imm : UInt16
deriving DecidableEq

namespace DForm

/-- The word as a number. -/
def value (x : DForm) : ℕ :=
  x.op.val * 2 ^ 26 + x.d.val * 2 ^ 21 + x.a.val * 2 ^ 16 + x.imm.toNat

theorem value_lt (x : DForm) : x.value < 2 ^ 32 := by
  have hop := x.op.isLt
  have hd := x.d.isLt
  have ha := x.a.isLt
  have himm := x.imm.toNat_lt
  unfold value
  omega

/-- The word that has these fields. -/
def word (x : DForm) : UInt32 := .ofNat x.value

/-- The fields of a word. -/
def ofWord (w : UInt32) : DForm where
  op := ⟨w.toNat / 2 ^ 26, by have := w.toNat_lt; omega⟩
  d := ⟨w.toNat / 2 ^ 21 % 32, Nat.mod_lt _ (by decide)⟩
  a := ⟨w.toNat / 2 ^ 16 % 32, Nat.mod_lt _ (by decide)⟩
  imm := .ofNat (w.toNat % 2 ^ 16)

theorem toNat_word (x : DForm) : x.word.toNat = x.value :=
  UInt32.toNat_ofNat_of_lt' x.value_lt

theorem toNat_imm_ofWord (w : UInt32) : (ofWord w).imm.toNat = w.toNat % 2 ^ 16 :=
  UInt16.toNat_ofNat_of_lt' (Nat.mod_lt _ (by decide))

theorem word_ofWord (w : UInt32) : (ofWord w).word = w := by
  refine UInt32.toNat_inj.1 ?_
  rw [toNat_word, value, toNat_imm_ofWord]
  show w.toNat / 2 ^ 26 * 2 ^ 26 + w.toNat / 2 ^ 21 % 32 * 2 ^ 21 + w.toNat / 2 ^ 16 % 32 * 2 ^ 16 +
    w.toNat % 2 ^ 16 = w.toNat
  omega

theorem ofWord_word (x : DForm) : ofWord x.word = x := by
  have hop := x.op.isLt
  have hd := x.d.isLt
  have ha := x.a.isLt
  have himm := x.imm.toNat_lt
  have hvalue := x.toNat_word
  unfold value at hvalue
  obtain ⟨op, d, a, imm⟩ := x
  simp only [ofWord, mk.injEq, Fin.ext_iff, hvalue] at hop hd ha himm ⊢
  refine ⟨by omega, by omega, by omega, ?_⟩
  refine UInt16.toNat_inj.1 ?_
  rw [UInt16.toNat_ofNat']
  omega

theorem word_injective : Function.Injective word := Function.LeftInverse.injective ofWord_word

/-- A word is known by its fields. -/
theorem eq_word {w : UInt32} {op : Fin 64} {a : Fin 32} (hop : (ofWord w).op = op)
    (ha : (ofWord w).a = a) : w = (mk op (ofWord w).d a (ofWord w).imm).word := by
  rw [← hop, ← ha]
  exact (word_ofWord w).symm

/-! ## Fields by shifts and masks -/

theorem op_eq_iff (w : UInt32) (op : Fin 64) :
    w >>> 26 = .ofNat op.val ↔ (ofWord w).op = op := by
  have hop : op.val % 2 ^ 32 = op.val := Nat.mod_eq_of_lt (op.isLt.trans (by decide))
  rw [← UInt32.toNat_inj, UInt32.toNat_shiftRight, Nat.shiftRight_eq_div_pow, UInt32.toNat_ofNat',
    hop, Fin.ext_iff]
  exact Iff.rfl

/-- The second register. -/
theorem toNat_a (w : UInt32) : ((w >>> 16) &&& 31).toNat = (ofWord w).a.val := by
  rw [UInt32.toNat_and, UInt32.toNat_shiftRight, Nat.shiftRight_eq_div_pow]
  exact Nat.and_two_pow_sub_one_eq_mod (w.toNat / 2 ^ 16) 5

/-- The first register. -/
theorem toNat_d (w : UInt32) : ((w >>> 21) &&& 31).toNat = (ofWord w).d.val := by
  rw [UInt32.toNat_and, UInt32.toNat_shiftRight, Nat.shiftRight_eq_div_pow]
  exact Nat.and_two_pow_sub_one_eq_mod (w.toNat / 2 ^ 21) 5

theorem toNat_imm (w : UInt32) : (w &&& 0xFFFF).toNat = (ofWord w).imm.toNat := by
  rw [UInt32.toNat_and, toNat_imm_ofWord]
  exact Nat.and_two_pow_sub_one_eq_mod w.toNat 16

theorem toUInt16_imm (w : UInt32) : (w &&& 0xFFFF).toUInt16 = (ofWord w).imm := by
  refine UInt16.toNat_inj.1 ?_
  rw [UInt32.toNat_toUInt16, toNat_imm]
  exact Nat.mod_eq_of_lt (ofWord w).imm.toNat_lt

end DForm

end Usbmidi9
