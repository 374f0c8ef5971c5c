/-
  Cyclic redundancy checks: a register into which the bits of a message are fed, the most
  significant bit first.

  `crcBits_eq` moves the bits in front of the shifts: up to a width of the register, bits
  that are fed one by one are an exclusive or followed by as many shifts.  From it,
  `crcBits_self`: a register that is fed its own bits is 0.  `crcBits_burst`: of two
  messages that differ within a width of the register, the registers differ, if the
  polynomial has a constant term.
-/
import Usbmidi9.Lib.Bits

namespace Usbmidi9

variable {w : ℕ}

/-- One shift of the register. -/
def crcShift (poly r : BitVec w) : BitVec w := (r <<< 1) ^^^ (if r.msb then poly else 0#w)

/-- One bit of the message. -/
def crcBit (poly r : BitVec w) (b : Bool) : BitVec w :=
  crcShift poly (r ^^^ (if b then BitVec.twoPow w (w - 1) else 0#w))

/-- The bits of a message. -/
def crcBits (poly r : BitVec w) (bits : List Bool) : BitVec w := bits.foldl (crcBit poly) r

@[simp] theorem crcBits_nil (poly r : BitVec w) : crcBits poly r [] = r := rfl

@[simp] theorem crcBits_cons (poly r : BitVec w) (b : Bool) (bits : List Bool) :
    crcBits poly r (b :: bits) = crcBits poly (crcBit poly r b) bits := rfl

theorem crcBits_append (poly r : BitVec w) (k l : List Bool) :
    crcBits poly r (k ++ l) = crcBits poly (crcBits poly r k) l := List.foldl_append

/-! ## Shifts -/

theorem crcShift_xor (poly x y : BitVec w) :
    crcShift poly (x ^^^ y) = crcShift poly x ^^^ crcShift poly y := by
  unfold crcShift
  rw [BitVec.shiftLeft_xor_distrib, BitVec.msb_xor]
  rcases x.msb with - | - <;> rcases y.msb with - | -
  · simp
  · simp [BitVec.xor_assoc]
  · simp only [Bool.xor_false, Bool.false_eq_true, if_true, if_false]
    ac_rfl
  · have hself : poly ^^^ poly = 0#w := BitVec.xor_self
    simp only [Bool.xor_self, Bool.false_eq_true, if_true, if_false]
    calc x <<< 1 ^^^ y <<< 1 ^^^ 0#w = x <<< 1 ^^^ y <<< 1 ^^^ (poly ^^^ poly) := by rw [hself]
      _ = x <<< 1 ^^^ poly ^^^ (y <<< 1 ^^^ poly) := by ac_rfl

@[simp] theorem crcShift_zero (poly : BitVec w) : crcShift poly 0#w = 0#w := by
  simp [crcShift]

theorem crcShift_iterate_zero (poly : BitVec w) (n : ℕ) : (crcShift poly)^[n] 0#w = 0#w :=
  Function.iterate_fixed (crcShift_zero poly) n

/-- Only 0 is shifted to 0. -/
theorem crcShift_eq_zero {poly r : BitVec w} (hpoly : poly.getLsbD 0 = true)
    (h : crcShift poly r = 0#w) : r = 0#w := by
  have hw : 0 < w := BitVec.lt_of_getLsbD hpoly
  have hmsb : r.msb = false := by
    rcases hmsb : r.msb with - | -
    · rfl
    · have hbit := congrArg (BitVec.getLsbD · 0) h
      rw [BitVec.getLsbD_eq_getElem hw] at hpoly
      simp [crcShift, hmsb, hw, hpoly] at hbit
  have hshift : r <<< 1 = 0#w := by simpa [crcShift, hmsb] using h
  refine BitVec.eq_of_getLsbD_eq fun i hi => ?_
  by_cases htop : i = w - 1
  · rw [BitVec.msb_eq_getLsbD_last] at hmsb
    simpa [htop] using hmsb
  · have hbit := congrArg (BitVec.getLsbD · (i + 1)) hshift
    simp only [BitVec.getLsbD_shiftLeft, decide_eq_true (show i + 1 < w by omega)] at hbit
    simpa using hbit

theorem crcShift_injective {poly : BitVec w} (hpoly : poly.getLsbD 0 = true) :
    Function.Injective (crcShift poly) := by
  intro x y hxy
  refine BitVec.xor_eq_zero_iff.1 (crcShift_eq_zero hpoly ?_)
  rw [crcShift_xor, hxy, BitVec.xor_self]

theorem crcBits_injective {poly : BitVec w} (hpoly : poly.getLsbD 0 = true) (bits : List Bool) :
    Function.Injective (crcBits poly · bits) := by
  induction bits with
  | nil => exact fun _ _ h => h
  | cons b bits ih =>
    intro x y hxy
    have hbit := crcShift_injective hpoly (ih hxy)
    simpa using hbit

/-! ## Bits at the upper end -/

theorem crcShift_topBits (poly : BitVec w) {bits : List Bool} (hlen : bits.length < w) :
    crcShift poly (topBits w bits >>> 1) = topBits w bits := by
  have hmsb : (topBits w bits >>> 1).msb = false := by
    rw [BitVec.msb_eq_getLsbD_last, BitVec.getLsbD_ushiftRight]
    exact BitVec.getLsbD_of_ge _ _ (by omega)
  refine BitVec.eq_of_getLsbD_eq fun i hi => ?_
  rw [crcShift, hmsb]
  rcases i with - | i
  · have hlow : bits[w - 1]? = none := List.getElem?_eq_none (by omega)
    simp [getLsbD_topBits, hlow]
  · simp [hi, Nat.add_comm]

/-- **Bits are an exclusive or and shifts**, as long as the register is wide enough. -/
theorem crcBits_eq (poly r : BitVec w) {bits : List Bool} (hlen : bits.length ≤ w) :
    crcBits poly r bits = (crcShift poly)^[bits.length] (r ^^^ topBits w bits) := by
  induction bits generalizing r with
  | nil => simp [topBits]
  | cons b bits ih =>
    have hlt : bits.length < w := hlen
    rw [crcBits_cons, ih _ hlt.le, List.length_cons, Function.iterate_succ_apply, topBits,
      ← BitVec.xor_assoc, crcShift_xor, crcShift_topBits poly hlt]
    rfl

/-- A register that is fed its own bits. -/
theorem crcBits_self (poly r : BitVec w) : crcBits poly r (msbBits w r.toNat) = 0#w := by
  rw [crcBits_eq poly r (length_msbBits w _).le, topBits_msbBits le_rfl, Nat.sub_self]
  simp [crcShift_iterate_zero]

/-- **Bursts are detected**: a difference within a width of the register is in the register. -/
theorem crcBits_burst {poly : BitVec w} (hpoly : poly.getLsbD 0 = true) (r : BitVec w)
    (front back : List Bool) {k l : List Bool} (hlen : k.length = l.length) (hw : k.length ≤ w)
    (h : crcBits poly r (front ++ k ++ back) = crcBits poly r (front ++ l ++ back)) : k = l := by
  simp only [crcBits_append] at h
  have hmid := crcBits_injective hpoly back h
  have hwl : l.length ≤ w := hlen.ge.trans hw
  simp only [crcBits_eq _ _ hw, crcBits_eq _ _ hwl, hlen] at hmid
  have htop : topBits w k = topBits w l := by
    simpa using (crcShift_injective hpoly).iterate _ hmid
  refine List.ext_getElem hlen ?_
  intro i hk hl
  have hbit := congrArg (BitVec.getLsbD · (w - 1 - i)) htop
  simp only [getLsbD_topBits] at hbit
  have hi : w - 1 - (w - 1 - i) = i := by omega
  have hlt : w - 1 - i < w := by omega
  simpa [hi, hlt, hk, hl] using hbit

end Usbmidi9
