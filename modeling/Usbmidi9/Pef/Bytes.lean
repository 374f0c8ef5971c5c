/-
  USBMIDI9 — big-endian words in a file, and how numbers and bytes are printed.
-/
import Usbmidi9.Lib.Outcome

namespace Usbmidi9

open Outcome

/-! ## Printing -/

/-- A number as `{:x}` prints it. -/
def hexString (n : ℕ) : String := String.ofList (Nat.toDigits 16 n)

/-- A number with at least `width` digits. -/
def hexPadded (width n : ℕ) : String := "".pushn '0' (width - (hexString n).length) ++ hexString n

/-- Bytes as `{:02x?}` prints them. -/
def hexBytes (l : List UInt8) : String :=
  "[" ++ ", ".intercalate (l.map fun b => hexPadded 2 b.toNat) ++ "]"

/-- `String::from_utf8_lossy`: every longest part that begins a character and is none
    becomes a replacement character. -/
def utf8Lossy : List UInt8 → List Char
  | [] => []
  | b :: rest =>
    let cont (c : UInt8) : Bool := 0x80 ≤ c ∧ c ≤ 0xBF
    let char (n : ℕ) : Char := Char.ofNat n
    let bits (c : UInt8) : ℕ := (c &&& 0x3F).toNat
    if b < 0x80 then char b.toNat :: utf8Lossy rest
    else if 0xC2 ≤ b ∧ b ≤ 0xDF then
      match rest with
      | c :: rest' =>
        if cont c then char ((b &&& 0x1F).toNat * 64 + bits c) :: utf8Lossy rest'
        else char 0xFFFD :: utf8Lossy (c :: rest')
      | [] => [char 0xFFFD]
    else if 0xE0 ≤ b ∧ b ≤ 0xEF then
      let second (c : UInt8) : Bool :=
        (if b = 0xE0 then 0xA0 ≤ c else 0x80 ≤ c) ∧ if b = 0xED then c ≤ 0x9F else c ≤ 0xBF
      match rest with
      | c :: d :: rest' =>
        if second c then
          if cont d then
            char ((b &&& 0x0F).toNat * 4096 + bits c * 64 + bits d) :: utf8Lossy rest'
          else char 0xFFFD :: utf8Lossy (d :: rest')
        else char 0xFFFD :: utf8Lossy (c :: d :: rest')
      | [c] => if second c then [char 0xFFFD] else char 0xFFFD :: utf8Lossy [c]
      | [] => [char 0xFFFD]
    else if 0xF0 ≤ b ∧ b ≤ 0xF4 then
      let second (c : UInt8) : Bool :=
        (if b = 0xF0 then 0x90 ≤ c else 0x80 ≤ c) ∧ if b = 0xF4 then c ≤ 0x8F else c ≤ 0xBF
      match rest with
      | c :: d :: e :: rest' =>
        if second c then
          if cont d then
            if cont e then
              char ((b &&& 0x07).toNat * 262144 + bits c * 4096 + bits d * 64 + bits e) ::
                utf8Lossy rest'
            else char 0xFFFD :: utf8Lossy (e :: rest')
          else char 0xFFFD :: utf8Lossy (d :: e :: rest')
        else char 0xFFFD :: utf8Lossy (c :: d :: e :: rest')
      | [c, d] =>
        if second c then if cont d then [char 0xFFFD] else char 0xFFFD :: utf8Lossy [d]
        else char 0xFFFD :: utf8Lossy [c, d]
      | [c] => if second c then [char 0xFFFD] else char 0xFFFD :: utf8Lossy [c]
      | [] => [char 0xFFFD]
    else char 0xFFFD :: utf8Lossy rest

/-! ## Words -/

/-- `u16::from_be_bytes`. -/
def u16FromBe (a b : UInt8) : UInt16 := (a.toUInt16 <<< 8) ||| b.toUInt16

/-- `u32::from_be_bytes`. -/
def u32FromBe (a b c d : UInt8) : UInt32 :=
  (a.toUInt32 <<< 24) ||| (b.toUInt32 <<< 16) ||| (c.toUInt32 <<< 8) ||| d.toUInt32

/-- `u32::to_be_bytes`. -/
def u32ToBe (v : UInt32) : List UInt8 :=
  [(v >>> 24).toUInt8, (v >>> 16).toUInt8, (v >>> 8).toUInt8, v.toUInt8]

/-- Bytes have no bit in common when they are shifted. -/
theorem or_bytes {a b c d : ℕ} (ha : a < 256) (hb : b < 256) (hc : c < 256) (hd : d < 256) :
    a <<< 24 % 2 ^ 32 ||| (b <<< 16 % 2 ^ 32 ||| (c <<< 8 % 2 ^ 32 ||| d)) =
      a * 16777216 + (b * 65536 + (c * 256 + d)) := by
  have hlow : c <<< 8 % 2 ^ 32 ||| d = c * 256 + d := by
    rw [Nat.mod_eq_of_lt (by omega), ← Nat.shiftLeft_add_eq_or_of_lt hd]
    omega
  have hmiddle : b <<< 16 % 2 ^ 32 ||| (c * 256 + d) = b * 65536 + (c * 256 + d) := by
    rw [Nat.mod_eq_of_lt (by omega),
      ← Nat.shiftLeft_add_eq_or_of_lt (show c * 256 + d < 2 ^ 16 by omega)]
    omega
  rw [hlow, hmiddle, Nat.mod_eq_of_lt (by omega), ← Nat.shiftLeft_add_eq_or_of_lt
    (show b * 65536 + (c * 256 + d) < 2 ^ 24 by omega)]
  omega

theorem toNat_u32FromBe (a b c d : UInt8) :
    (u32FromBe a b c d).toNat =
      a.toNat * 16777216 + (b.toNat * 65536 + (c.toNat * 256 + d.toNat)) := by
  rw [← or_bytes a.toNat_lt b.toNat_lt c.toNat_lt d.toNat_lt]
  simp only [u32FromBe, UInt32.toNat_or, UInt32.toNat_shiftLeft, UInt8.toNat_toUInt32, Nat.or_assoc]
  rfl

theorem u32FromBe_u32ToBe (v : UInt32) :
    u32FromBe (v >>> 24).toUInt8 (v >>> 16).toUInt8 (v >>> 8).toUInt8 v.toUInt8 = v := by
  have hv := v.toNat_lt
  have h24 : UInt32.toNat 24 % 32 = 24 := rfl
  have h16 : UInt32.toNat 16 % 32 = 16 := rfl
  have h8 : UInt32.toNat 8 % 32 = 8 := rfl
  refine UInt32.toNat_inj.1 ?_
  rw [toNat_u32FromBe]
  simp only [UInt32.toNat_toUInt8, UInt32.toNat_shiftRight, Nat.shiftRight_eq_div_pow, h24, h16, h8]
  omega

/-- `u16::to_be_bytes`. -/
def u16ToBe (v : UInt16) : List UInt8 := [(v >>> 8).toUInt8, v.toUInt8]

theorem u32ToBe_u32FromBe (a b c d : UInt8) : u32ToBe (u32FromBe a b c d) = [a, b, c, d] := by
  have ha := a.toNat_lt
  have hb := b.toNat_lt
  have hc := c.toNat_lt
  have hd := d.toNat_lt
  have h24 : UInt32.toNat 24 % 32 = 24 := rfl
  have h16 : UInt32.toNat 16 % 32 = 16 := rfl
  have h8 : UInt32.toNat 8 % 32 = 8 := rfl
  simp only [u32ToBe, List.cons.injEq, and_true, ← UInt8.toNat_inj, UInt32.toNat_toUInt8,
    UInt32.toNat_shiftRight, Nat.shiftRight_eq_div_pow, h24, h16, h8, toNat_u32FromBe]
  omega

theorem toNat_u16FromBe (a b : UInt8) : (u16FromBe a b).toNat = a.toNat * 256 + b.toNat := by
  have ha := a.toNat_lt
  have hb := b.toNat_lt
  have hor : a.toNat <<< 8 ||| b.toNat = a.toNat * 256 + b.toNat := by
    rw [← Nat.shiftLeft_add_eq_or_of_lt (show b.toNat < 2 ^ 8 from hb)]
    omega
  have hshift : a.toNat <<< 8 % 2 ^ 16 = a.toNat <<< 8 := Nat.mod_eq_of_lt (by omega)
  rw [← hor, ← hshift]
  simp only [u16FromBe, UInt16.toNat_or, UInt16.toNat_shiftLeft, UInt8.toNat_toUInt16]
  rfl

theorem u16ToBe_u16FromBe (a b : UInt8) : u16ToBe (u16FromBe a b) = [a, b] := by
  have ha := a.toNat_lt
  have hb := b.toNat_lt
  have h8 : UInt16.toNat 8 % 16 = 8 := rfl
  simp only [u16ToBe, List.cons.injEq, and_true, ← UInt8.toNat_inj, UInt16.toNat_toUInt8,
    UInt16.toNat_shiftRight, Nat.shiftRight_eq_div_pow, h8, toNat_u16FromBe]
  omega

theorem u16FromBe_u16ToBe (v : UInt16) : u16FromBe (v >>> 8).toUInt8 v.toUInt8 = v := by
  have hv := v.toNat_lt
  have h8 : UInt16.toNat 8 % 16 = 8 := rfl
  refine UInt16.toNat_inj.1 ?_
  rw [toNat_u16FromBe]
  simp only [UInt16.toNat_toUInt8, UInt16.toNat_shiftRight, Nat.shiftRight_eq_div_pow, h8]
  omega

section
variable {ε : Type} (data : List UInt8) (off : ℕ)

/-- `u16_at`. -/
def u16At : Outcome ε UInt16 := do
  let a ← get data off
  let b ← get data (off + 1)
  .ok (u16FromBe a b)

/-- `u32_at`. -/
def u32At : Outcome ε UInt32 := do
  let a ← get data off
  let b ← get data (off + 1)
  let c ← get data (off + 2)
  let d ← get data (off + 3)
  .ok (u32FromBe a b c d)

/-- The word at an offset, if there is one. -/
def wordAt : UInt32 :=
  u32FromBe (data.getD off 0) (data.getD (off + 1) 0) (data.getD (off + 2) 0) (data.getD (off + 3) 0)

/-- A word written over four bytes. -/
def setWord (v : UInt32) : List UInt8 := data.take off ++ u32ToBe v ++ data.drop (off + 4)

variable {data off}

theorem u16At_safe (h : off + 2 ≤ data.length) : (u16At data off : Outcome ε _).Safe fun _ => True := by
  unfold u16At
  rw [get_eq (by omega), ok_bind, get_eq (by omega), ok_bind]
  trivial

theorem u32At_eq (h : off + 4 ≤ data.length) : (u32At data off : Outcome ε _) = .ok (wordAt data off) := by
  unfold u32At wordAt
  rw [get_eq (by omega), ok_bind, get_eq (by omega), ok_bind, get_eq (by omega), ok_bind,
    get_eq (by omega), ok_bind]
  simp only [List.getD_eq_getElem?_getD]
  rw [List.getElem?_eq_getElem (by omega), List.getElem?_eq_getElem (by omega),
    List.getElem?_eq_getElem (by omega), List.getElem?_eq_getElem (by omega)]
  rfl

theorem u32At_safe (h : off + 4 ≤ data.length) : (u32At data off : Outcome ε _).Safe fun _ => True := by
  rw [u32At_eq h]
  trivial

theorem length_setWord {v : UInt32} (h : off + 4 ≤ data.length) :
    (setWord data off v).length = data.length := by
  simp only [setWord, u32ToBe, List.length_append, List.length_take, List.length_drop,
    List.length_cons, List.length_nil]
  omega

/-- A written word is four bytes of the list. -/
theorem getElem?_setWord {v : UInt32} (h : off + 4 ≤ data.length) (i : ℕ) :
    (setWord data off v)[i]? =
      if off ≤ i ∧ i < off + 4 then (u32ToBe v)[i - off]? else data[i]? := by
  have htake : (data.take off).length = off := by
    rw [List.length_take]
    omega
  have hword : (data.take off ++ u32ToBe v).length = off + 4 := by
    rw [List.length_append, htake]
    rfl
  unfold setWord
  split_ifs with hin
  · rw [List.getElem?_append_left (by omega), List.getElem?_append_right (by omega), htake]
  · by_cases hlt : i < off
    · rw [List.getElem?_append_left (by omega), List.getElem?_append_left (by omega),
        List.getElem?_take_of_lt hlt]
    · rw [List.getElem?_append_right (by omega), hword, List.getElem?_drop]
      congr 1
      omega

theorem wordAt_setWord {v : UInt32} (h : off + 4 ≤ data.length) :
    wordAt (setWord data off v) off = v := by
  have hget : ∀ k < 4, (setWord data off v).getD (off + k) 0 = (u32ToBe v).getD k 0 := by
    intro k hk
    rw [List.getD_eq_getElem?_getD, getElem?_setWord h, if_pos (by omega), Nat.add_sub_cancel_left,
      List.getD_eq_getElem?_getD]
  have hfirst := hget 0 (by decide)
  rw [Nat.add_zero] at hfirst
  unfold wordAt
  rw [hfirst, hget 1 (by decide), hget 2 (by decide), hget 3 (by decide)]
  exact u32FromBe_u32ToBe v

/-- A word that has no byte of the written one. -/
theorem wordAt_setWord_of_disjoint {v : UInt32} (h : off + 4 ≤ data.length) {p : ℕ}
    (hp : p + 4 ≤ off ∨ off + 4 ≤ p) : wordAt (setWord data off v) p = wordAt data p := by
  have hget : ∀ k < 4, (setWord data off v).getD (p + k) 0 = data.getD (p + k) 0 := by
    intro k hk
    rw [List.getD_eq_getElem?_getD, getElem?_setWord h, if_neg (by omega),
      List.getD_eq_getElem?_getD]
  have hfirst := hget 0 (by decide)
  rw [Nat.add_zero] at hfirst
  unfold wordAt
  rw [hfirst, hget 1 (by decide), hget 2 (by decide), hget 3 (by decide)]

end

end Usbmidi9
