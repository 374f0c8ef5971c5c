/-
  USBMIDI9 — the PowerPC disassembler of the trap scan (`pefcheck/src/trapcheck.rs`).

  `decode` prints one word.  A `tw` instruction is printed with the operands that
  `encodeTw` put into it (`decode_encodeTw`).
-/
import Usbmidi9.Pef.Bytes

namespace Usbmidi9

/-! ## Operands -/

/-- A word as `{:x}` prints it. -/
def hexU32 (v : UInt32) : String := hexString v.toNat

/-- A signed word as `{:x}` prints it. -/
def hexI32 (v : Int32) : String := hexU32 v.toUInt32

/-- `sign16`. -/
def sign16 (w : UInt32) : Int32 := (w &&& 0xFFFF).toUInt16.toInt16.toInt32

/-- `dform`. -/
def dform (w : UInt32) : String := s!"{(sign16 w).toInt}(r{(w >>> 16) &&& 31})"

/-- `rec_suffix`. -/
def recSuffix (w : UInt32) : String := if w &&& 1 = 1 then "." else ""

/-- `target`. -/
def target (aa : UInt32) (d : Int32) : String :=
  if aa = 1 then s!"0x{hexI32 d}"
  else if 0 ≤ d then s!"+0x{hexI32 d}"
  else s!"-0x{hexI32 (-d)}"

/-- `spr_num`. -/
def sprNum (w : UInt32) : UInt32 := (((w >>> 11) &&& 31) <<< 5) ||| ((w >>> 16) &&& 31)

/-! ## Opcodes with extended opcodes -/

/-- `decode_xl`: opcode 19. -/
def decodeXl (w : UInt32) : String :=
  let xo := (w >>> 1) &&& 0x3FF
  let bo := (w >>> 21) &&& 31
  let bi := (w >>> 16) &&& 31
  let lk := if w &&& 1 = 1 then "l" else ""
  match xo.toNat with
  | 0 => s!"mcrf cr{(w >>> 23) &&& 7},{(w >>> 18) &&& 7},cr{(w >>> 13) &&& 7}"
  | 16 => if bo = 20 ∧ bi = 0 then s!"blr{lk}" else s!"bclr{lk} 0x{hexU32 bo},0x{hexU32 bi}"
  | 50 => "rfi"
  | 150 => "isync"
  | 528 => s!"bcctr{lk} 0x{hexU32 bo},0x{hexU32 bi}"
  | _ => s!"opcode 19 xo 0x{hexU32 xo}"

/-- `decode_x`: opcode 31. -/
def decodeX (w : UInt32) : String :=
  let xo := (w >>> 1) &&& 0x3FF
  let rS := (w >>> 21) &&& 31
  let rA := (w >>> 16) &&& 31
  let rB := (w >>> 11) &&& 31
  let o := if (w >>> 10) &&& 1 = 1 then "o" else ""
  let dot := if w &&& 1 = 1 then "." else ""
  let three (name : String) : String := s!"{name} r{rS},r{rA},r{rB}"
  let two (name : String) : String := s!"{name} r{rS},r{rA}"
  let cache (name : String) : String := s!"{name} r{rA},r{rB}"
  let compare (name : String) : String := s!"{name} cr{(w >>> 23) &&& 7},{rA},r{rB}"
  match xo.toNat with
  | 0 => compare "cmpw"
  | 4 => s!"tw 0x{hexU32 rS},r{rA},r{rB}"
  | 8 => three s!"subfc{o}"
  | 10 => three s!"addc{o}"
  | 11 => three "mulhwu"
  | 19 => s!"mfcr r{rS}"
  | 20 => three "lwarx"
  | 23 => three "lwzx"
  | 24 => three s!"slw{dot}"
  | 26 => two s!"cntlzw{dot}"
  | 27 => three s!"sld{dot}"
  | 28 => three s!"and{dot}"
  | 32 => compare "cmplw"
  | 40 => three s!"subf{o}"
  | 54 => cache "dcbst"
  | 60 => three s!"andc{dot}"
  | 75 => three s!"mulhw{dot}"
  | 86 => cache "dcbf"
  | 87 => three "lbzx"
  | 104 => two s!"neg{o}"
  | 119 => three "lbzux"
  | 124 => three s!"nor{dot}"
  | 144 => s!"mtcrf 0x{hexU32 ((w >>> 18) &&& 0xFF)},r{rS}"
  | 150 => three "stwcx."
  | 151 => three "stwx"
  | 183 => three "stwux"
  | 200 => two s!"subfze{o}"
  | 202 => two s!"addze{o}"
  | 215 => three "stbx"
  | 232 => two s!"subfme{o}"
  | 234 => two s!"addme{o}"
  | 235 => three s!"mullw{o}"
  | 247 => three "stbux"
  | 266 => three s!"add{o}"
  | 279 => three "lhzx"
  | 284 => three s!"eqv{dot}"
  | 311 => three "lhzux"
  | 316 => three s!"xor{dot}"
  | 339 => match (sprNum w).toNat with
    | 8 => s!"mflr r{rS}"
    | 9 => s!"mfctr r{rS}"
    | s => s!"mfspr r{rS},spr 0x{hexString s}"
  | 343 => three "lhax"
  | 375 => three "lhaux"
  | 407 => three "sthx"
  | 412 => three s!"orc{dot}"
  | 439 => three "sthux"
  | 444 => three s!"or{dot}"
  | 459 => three s!"divwu{o}"
  | 467 => match (sprNum w).toNat with
    | 8 => s!"mtlr r{rS}"
    | 9 => s!"mtctr r{rS}"
    | s => s!"mtspr spr 0x{hexString s},r{rS}"
  | 470 => cache "dcbi"
  | 476 => three s!"nand{dot}"
  | 491 => three s!"divw{o}"
  | 520 => three "subfco"
  | 522 => three "addco"
  | 534 => three "lwbrx"
  | 536 => three s!"srw{dot}"
  | 539 => three s!"srd{dot}"
  | 552 => three "subfo"
  | 598 => "sync"
  | 616 => two "nego"
  | 662 => three "sthbrx"
  | 712 => two "subfzeo"
  | 714 => two "addzeo"
  | 744 => two "subfmeo"
  | 746 => two "addmeo"
  | 747 => three "mullwo"
  | 778 => three "addo"
  | 790 => three "lhbrx"
  | 792 => three s!"sraw{dot}"
  | 824 => s!"srawi{dot} r{rA},r{rS},{rB}"
  | 854 => "eieio"
  | 918 => three "stwbrx"
  | 922 => two s!"extsh{dot}"
  | 954 => two s!"extsb{dot}"
  | 971 => three "divwuo"
  | 982 => cache "icbi"
  | 1003 => three "divwo"
  | 1014 => cache "dcbz"
  | _ => s!"opcode 31 xo 0x{hexU32 xo}"

/-- `decode_fp_a`: opcode 59. -/
def decodeFpA (w : UInt32) : String :=
  let xo := (w >>> 1) &&& 0x3FF
  let three (name : String) : String :=
    s!"{name} f{(w >>> 21) &&& 31},f{(w >>> 16) &&& 31},f{(w >>> 11) &&& 31}"
  match xo.toNat with
  | 18 => three "fdivs"
  | 20 => three "fsubs"
  | 21 => three "fadds"
  | 25 => three "fmuls"
  | _ => s!"opcode 59 xo 0x{hexU32 xo}"

/-- `decode_fp`: opcode 63. -/
def decodeFp (w : UInt32) : String :=
  let xo := (w >>> 1) &&& 0x3FF
  let frD := (w >>> 21) &&& 31
  let frA := (w >>> 16) &&& 31
  let frB := (w >>> 11) &&& 31
  let frC := (w >>> 6) &&& 31
  let compare (name : String) : String := s!"{name} cr{(w >>> 23) &&& 7},{frA},f{frB}"
  let two (name : String) : String := s!"{name} f{frD},f{frB}"
  let three (name : String) : String := s!"{name} f{frD},f{frA},f{frB}"
  let four (name : String) : String := s!"{name} f{frD},f{frA},f{frB},f{frC}"
  match xo.toNat with
  | 0 => compare "fcmpu"
  | 12 => two "frsp"
  | 14 => two "fctiw"
  | 15 => two "fctiwz"
  | 18 => three "fdiv"
  | 20 => three "fsub"
  | 21 => three "fadd"
  | 22 => two "fsqrt"
  | 25 => three "fmul"
  | 28 => four "fmsub"
  | 29 => four "fmadd"
  | 30 => four "fnmsub"
  | 31 => four "fnmadd"
  | 32 => compare "fcmpo"
  | 40 => two "fneg"
  | 72 => two "fmr"
  | 264 => two "fabs"
  | _ => s!"opcode 63 xo 0x{hexU32 xo}"

/-! ## Words -/

/-- The mnemonic of a conditional branch that has one. -/
def branchName (bo bi : UInt32) : Option String :=
  match bo.toNat, bi.toNat with
  | 12, 0 => some "blt"
  | 4, 0 => some "bge"
  | 12, 1 => some "bgt"
  | 4, 1 => some "ble"
  | 12, 2 => some "beq"
  | 4, 2 => some "bne"
  | 16, 0 => some "bdnz"
  | 18, 0 => some "bdz"
  | _, _ => none

/-- `decode`. -/
def decode (w : UInt32) : String :=
  let op := w >>> 26
  let d := (w >>> 21) &&& 31
  let a := (w >>> 16) &&& 31
  let uimm := w &&& 0xFFFF
  let simm := (sign16 w).toInt
  let memory (reg name : String) : String := s!"{name} {reg}{d},{dform w}"
  let logical (name : String) : String := s!"{name} r{d},r{a},0x{hexU32 uimm}"
  let rotate (name reg : String) : String :=
    s!"{name}{recSuffix w} r{a},r{d},{reg}{(w >>> 11) &&& 31},{(w >>> 6) &&& 31},{(w >>> 1) &&& 31}"
  match op.toNat with
  | 3 => s!"twi 0x{hexU32 d},r{a},{simm}"
  | 7 => s!"mulli r{d},r{a},{simm}"
  | 8 => s!"subfic r{d},r{a},{simm}"
  | 10 => s!"cmplwi cr{(w >>> 21) &&& 7},{a},{uimm}"
  | 11 => s!"cmpwi cr{(w >>> 21) &&& 7},{a},{simm}"
  | 12 => s!"addic r{d},r{a},{simm}"
  | 13 => s!"addic. r{d},r{a},{simm}"
  | 14 => if a = 0 then s!"li r{d},{simm}" else s!"addi r{d},r{a},{simm}"
  | 15 =>
    if a = 0 then s!"lis r{d},0x{hexU32 uimm}" else s!"addis r{d},r{a},0x{hexU32 uimm}"
  | 16 =>
    let aa := (w >>> 1) &&& 1
    let lk := w &&& 1
    let bd := (w &&& 0xFFFC).toUInt16.toInt16.toInt32
    match branchName d a with
    | none => s!"bc 0x{hexU32 d},0x{hexU32 a} {target aa bd}"
    | some name => name ++ (if lk = 1 then "l" else "") ++ " " ++ target aa bd
  | 17 => "sc"
  | 18 =>
    let li := (w &&& 0x03FFFFFC).toInt32
    let li := if li &&& 0x02000000 ≠ 0 then li ||| ~~~0x03FFFFFF else li
    let aa := (w >>> 1) &&& 1
    let lk := w &&& 1
    let name := if lk = 1 then "bl" else "b"
    if aa = 1 then s!"{name}a 0x{hexI32 li}"
    else
      let s := if 0 ≤ li then "+" else "-"
      let v := if 0 ≤ li then li else -li
      s!"{name} {s}0x{hexI32 v}"
  | 19 => decodeXl w
  | 20 => rotate "rlwimi" ""
  | 21 => rotate "rlwinm" ""
  | 23 => rotate "rlwnm" "r"
  | 24 => if d = a ∧ uimm = 0 then "nop" else logical "ori"
  | 25 => logical "oris"
  | 26 => logical "xori"
  | 27 => logical "xoris"
  | 28 => logical "andi."
  | 29 => logical "andis."
  | 32 => memory "r" "lwz"
  | 33 => memory "r" "lwzu"
  | 34 => memory "r" "lbz"
  | 35 => memory "r" "lbzu"
  | 36 => memory "r" "stw"
  | 37 => memory "r" "stwu"
  | 38 => memory "r" "stb"
  | 39 => memory "r" "stbu"
  | 40 => memory "r" "lhz"
  | 41 => memory "r" "lhzu"
  | 42 => memory "r" "lha"
  | 43 => memory "r" "lhau"
  | 44 => memory "r" "sth"
  | 45 => memory "r" "sthu"
  | 46 => memory "r" "lmw"
  | 47 => memory "r" "stmw"
  | 48 => memory "f" "lfs"
  | 49 => memory "f" "lfsu"
  | 50 => memory "f" "lfd"
  | 51 => memory "f" "lfdu"
  | 52 => memory "f" "stfs"
  | 53 => memory "f" "stfsu"
  | 54 => memory "f" "stfd"
  | 55 => memory "f" "stfdu"
  | 31 => decodeX w
  | 59 => decodeFpA w
  | 63 => decodeFp w
  | _ => s!"opcode {op}"

/-! ## Traps -/

/-- `TRAP_WORD`. -/
abbrev trapWord : UInt32 := 0x7F800008

/-- `encode_tw`. -/
def encodeTw (cond ra rb : UInt32) : UInt32 :=
  ((31 : UInt32) <<< 26) ||| ((cond &&& 31) <<< 21) ||| ((ra &&& 31) <<< 16) ||| ((rb &&& 31) <<< 11) |||
    ((4 : UInt32) <<< 1)

theorem toNat_and_31 (v : UInt32) : (v &&& 31).toNat = v.toNat % 32 := by
  rw [UInt32.toNat_and]
  exact Nat.and_two_pow_sub_one_eq_mod v.toNat 5

/-- The fields of a `tw` have no bit in common. -/
theorem or_tw {c a b : ℕ} (hc : c < 32) (ha : a < 32) (hb : b < 32) :
    31 <<< 26 ||| (c <<< 21 % 2 ^ 32 ||| (a <<< 16 % 2 ^ 32 ||| (b <<< 11 % 2 ^ 32 ||| 8))) =
      31 * 2 ^ 26 + (c * 2 ^ 21 + (a * 2 ^ 16 + (b * 2 ^ 11 + 8))) := by
  have hlow : b <<< 11 % 2 ^ 32 ||| 8 = b * 2 ^ 11 + 8 := by
    rw [Nat.mod_eq_of_lt (by omega), ← Nat.shiftLeft_add_eq_or_of_lt (show 8 < 2 ^ 11 by decide)]
    omega
  have hmiddle : a <<< 16 % 2 ^ 32 ||| (b * 2 ^ 11 + 8) = a * 2 ^ 16 + (b * 2 ^ 11 + 8) := by
    rw [Nat.mod_eq_of_lt (by omega),
      ← Nat.shiftLeft_add_eq_or_of_lt (show b * 2 ^ 11 + 8 < 2 ^ 16 by omega)]
    omega
  have hhigh : c <<< 21 % 2 ^ 32 ||| (a * 2 ^ 16 + (b * 2 ^ 11 + 8)) =
      c * 2 ^ 21 + (a * 2 ^ 16 + (b * 2 ^ 11 + 8)) := by
    rw [Nat.mod_eq_of_lt (by omega), ← Nat.shiftLeft_add_eq_or_of_lt
      (show a * 2 ^ 16 + (b * 2 ^ 11 + 8) < 2 ^ 21 by omega)]
    omega
  rw [hlow, hmiddle, hhigh, ← Nat.shiftLeft_add_eq_or_of_lt
    (show c * 2 ^ 21 + (a * 2 ^ 16 + (b * 2 ^ 11 + 8)) < 2 ^ 26 by omega)]
  omega

theorem toNat_encodeTw (cond ra rb : UInt32) :
    (encodeTw cond ra rb).toNat =
      31 * 2 ^ 26 + (cond.toNat % 32 * 2 ^ 21 + (ra.toNat % 32 * 2 ^ 16 +
        (rb.toNat % 32 * 2 ^ 11 + 8))) := by
  have h31 : ((31 : UInt32) <<< 26).toNat = 31 <<< 26 := by decide
  have h4 : ((4 : UInt32) <<< 1).toNat = 8 := by decide
  rw [← or_tw (Nat.mod_lt _ (by decide)) (Nat.mod_lt _ (by decide)) (Nat.mod_lt _ (by decide))]
  simp only [encodeTw, UInt32.toNat_or, UInt32.toNat_shiftLeft, toNat_and_31, h31, h4, Nat.or_assoc]
  rfl

/-- A field of five bits. -/
theorem field_eq {w s v : UInt32} (k : ℕ) (hs : s.toNat % 32 = k)
    (h : w.toNat / 2 ^ k % 32 = v.toNat % 32) : (w >>> s) &&& 31 = v &&& 31 := by
  refine UInt32.toNat_inj.1 ?_
  rw [toNat_and_31, toNat_and_31, UInt32.toNat_shiftRight, hs, Nat.shiftRight_eq_div_pow, h]

/-- **A trap is printed with the operands it was encoded with.** -/
theorem decode_encodeTw (cond ra rb : UInt32) :
    decode (encodeTw cond ra rb) =
      s!"tw 0x{hexU32 (cond &&& 31)},r{ra &&& 31},r{rb &&& 31}" := by
  have hw := toNat_encodeTw cond ra rb
  have hop : (encodeTw cond ra rb >>> 26).toNat = 31 := by
    rw [UInt32.toNat_shiftRight, Nat.shiftRight_eq_div_pow, hw]
    show _ / 2 ^ 26 = 31
    omega
  have hxo : ((encodeTw cond ra rb >>> 1) &&& 0x3FF).toNat = 4 := by
    rw [UInt32.toNat_and, UInt32.toNat_shiftRight, Nat.shiftRight_eq_div_pow, hw]
    refine (Nat.and_two_pow_sub_one_eq_mod _ 10).trans ?_
    show _ / 2 ^ 1 % 2 ^ 10 = 4
    omega
  have hc : (encodeTw cond ra rb >>> 21) &&& 31 = cond &&& 31 :=
    field_eq 21 rfl (by rw [hw]; omega)
  have ha : (encodeTw cond ra rb >>> 16) &&& 31 = ra &&& 31 :=
    field_eq 16 rfl (by rw [hw]; omega)
  have hb : (encodeTw cond ra rb >>> 11) &&& 31 = rb &&& 31 :=
    field_eq 11 rfl (by rw [hw]; omega)
  have hdecode : decode (encodeTw cond ra rb) = decodeX (encodeTw cond ra rb) := by
    unfold decode
    simp only [hop]
  rw [hdecode]
  unfold decodeX
  simp only [hxo, hc, ha, hb]

example : encodeTw 0x1C 0 0 = trapWord ∧ decode trapWord = "tw 0x1c,r0,r0" := by decide +kernel

end Usbmidi9
