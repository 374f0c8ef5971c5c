/-
  Numbers as lists of bits, in either order.

  `msbBits n c` are the lowest `n` bits of `c` with the most significant one first,
  `lsbBits n c` with the least significant one first.  `bitsValue` reads a list back, the
  first bit being the least significant one.
-/
import Mathlib

namespace Usbmidi9

/-- The lowest `n` bits of `c`, the most significant one first. -/
def msbBits : ℕ → ℕ → List Bool
  | 0, _ => []
  | n + 1, c => c.testBit n :: msbBits n c

/-- The lowest `n` bits of `c`, the least significant one first. -/
def lsbBits : ℕ → ℕ → List Bool
  | 0, _ => []
  | n + 1, c => c.testBit 0 :: lsbBits n (c / 2)

/-- The value of a list of bits, the least significant one first. -/
def bitsValue : List Bool → ℕ
  | [] => 0
  | b :: bs => b.toNat + 2 * bitsValue bs

@[simp] theorem length_msbBits (n c : ℕ) : (msbBits n c).length = n := by
  induction n with
  | zero => rfl
  | succ n ih => simp [msbBits, ih]

@[simp] theorem length_lsbBits (n c : ℕ) : (lsbBits n c).length = n := by
  induction n generalizing c with
  | zero => rfl
  | succ n ih => simp [lsbBits, ih]

theorem getElem?_msbBits (n c j : ℕ) :
    (msbBits n c)[j]?.getD false = (decide (j < n) && c.testBit (n - 1 - j)) := by
  induction n generalizing j with
  | zero => simp [msbBits]
  | succ n ih =>
    rcases j with - | j
    · simp [msbBits]
    · have hsub : n - (j + 1) = n - 1 - j := by omega
      rw [msbBits, List.getElem?_cons_succ, ih, Nat.add_sub_cancel, hsub]
      simp

theorem msbBits_mod (n c : ℕ) : msbBits n (c % 2 ^ n) = msbBits n c := by
  refine List.ext_getElem (by simp) fun i hi _ => ?_
  have hlt : i < n := by simpa using hi
  have hbit := getElem?_msbBits n (c % 2 ^ n) i
  rw [Nat.testBit_mod_two_pow, decide_eq_true (show n - 1 - i < n by omega), Bool.true_and,
    ← getElem?_msbBits] at hbit
  simpa [hlt] using hbit

/-- The bits above the lowest `k` come first. -/
theorem msbBits_add (m k c : ℕ) : msbBits (m + k) c = msbBits m (c / 2 ^ k) ++ msbBits k c := by
  induction m with
  | zero => simp [msbBits]
  | succ m ih =>
    rw [Nat.add_right_comm, msbBits, ih, msbBits, List.cons_append, Nat.testBit_div_two_pow]

theorem msbBits_inj {n c d : ℕ} (hc : c < 2 ^ n) (hd : d < 2 ^ n) (h : msbBits n c = msbBits n d) :
    c = d := by
  refine Nat.eq_of_testBit_eq fun i => ?_
  by_cases hi : i < n
  · clear hc hd
    induction n with
    | zero => omega
    | succ n ih =>
      obtain ⟨hbit, hrest⟩ := List.cons.inj h
      rcases Nat.lt_succ_iff_lt_or_eq.1 hi with hlt | rfl
      · exact ih hrest hlt
      · exact hbit
  · have hle : 2 ^ n ≤ 2 ^ i := Nat.pow_le_pow_right (by decide) (Nat.le_of_not_lt hi)
    rw [Nat.testBit_lt_two_pow (hc.trans_le hle), Nat.testBit_lt_two_pow (hd.trans_le hle)]

/-- Every list of bits is `msbBits` of some number. -/
theorem exists_msbBits (l : List Bool) : ∃ c < 2 ^ l.length, msbBits l.length c = l := by
  induction l with
  | nil => exact ⟨0, by simp, rfl⟩
  | cons b l ih =>
    obtain ⟨c, hc, hl⟩ := ih
    have hlow : ∀ n ≤ l.length, msbBits n (2 ^ l.length * b.toNat + c) = msbBits n c := by
      intro n
      induction n with
      | zero => exact fun _ => rfl
      | succ n ihn =>
        intro hn
        rw [msbBits, msbBits, ihn (by omega), Nat.testBit_two_pow_mul_add _ hc,
          if_pos (show n < l.length from hn)]
    refine ⟨2 ^ l.length * b.toNat + c, ?_, ?_⟩
    · have hb : b.toNat ≤ 1 := Bool.toNat_le b
      rw [List.length_cons, pow_succ]
      calc 2 ^ l.length * b.toNat + c < 2 ^ l.length * b.toNat + 2 ^ l.length := by omega
        _ ≤ 2 ^ l.length * 1 + 2 ^ l.length := by gcongr
        _ = 2 ^ l.length * 2 := by ring
    · rw [List.length_cons, msbBits, hlow _ le_rfl, hl, Nat.testBit_two_pow_mul_add _ hc,
        if_neg (lt_irrefl _), Nat.sub_self]
      cases b <;> rfl

theorem bitsValue_inj {k l : List Bool} (hlen : k.length = l.length) (h : bitsValue k = bitsValue l) :
    k = l := by
  induction k generalizing l with
  | nil => exact (List.eq_nil_of_length_eq_zero hlen.symm).symm
  | cons b k ih =>
    cases l with
    | nil => simp at hlen
    | cons c l =>
      simp only [bitsValue] at h
      have hbc : b = c := by cases b <;> cases c <;> simp at h ⊢ <;> omega
      subst hbc
      rw [ih (by simpa using hlen) (by omega)]

theorem bitsValue_append (k l : List Bool) :
    bitsValue (k ++ l) = bitsValue k + 2 ^ k.length * bitsValue l := by
  induction k with
  | nil => simp [bitsValue]
  | cons b k ih =>
    rw [List.cons_append, bitsValue, ih, bitsValue, List.length_cons, pow_succ]
    ring

theorem bitsValue_lt (l : List Bool) : bitsValue l < 2 ^ l.length := by
  induction l with
  | nil => simp [bitsValue]
  | cons b l ih =>
    have hb : b.toNat ≤ 1 := Bool.toNat_le b
    rw [bitsValue, List.length_cons, pow_succ]
    omega

/-- Of two lists with one value, the shorter is a prefix of the longer. -/
theorem prefix_of_bitsValue {k l : List Bool} (hlen : k.length ≤ l.length)
    (h : bitsValue k = bitsValue l) : k <+: l := by
  have htake : (l.take k.length).length = k.length := by simpa using hlen
  have hsplit := bitsValue_append (l.take k.length) (l.drop k.length)
  rw [List.take_append_drop, htake] at hsplit
  have heq : k = l.take k.length := by
    refine bitsValue_inj htake.symm ?_
    have hk := bitsValue_lt k
    have hl := bitsValue_lt (l.take k.length)
    rw [htake] at hl
    rw [← Nat.mod_eq_of_lt hk, h, hsplit, Nat.add_mul_mod_self_left, Nat.mod_eq_of_lt hl]
  rw [heq]
  exact List.take_prefix _ _

/-! ## Least significant bits first -/

/-- The bits above the lowest `m` come last. -/
theorem lsbBits_add (m k c : ℕ) : lsbBits (m + k) c = lsbBits m c ++ lsbBits k (c / 2 ^ m) := by
  induction m generalizing c with
  | zero => simp [lsbBits]
  | succ m ih =>
    rw [Nat.add_right_comm, lsbBits, ih, lsbBits, List.cons_append, Nat.div_div_eq_div_mul,
      pow_succ']

theorem lsbBits_mod (n c : ℕ) : lsbBits n (c % 2 ^ n) = lsbBits n c := by
  induction n generalizing c with
  | zero => rfl
  | succ n ih =>
    rw [lsbBits, lsbBits, Nat.testBit_mod_two_pow, pow_succ', Nat.mod_mul_right_div_self, ih]
    simp

@[simp] theorem bitsValue_lsbBits (n c : ℕ) : bitsValue (lsbBits n c) = c % 2 ^ n := by
  induction n generalizing c with
  | zero => simp [lsbBits, bitsValue, Nat.mod_one]
  | succ n ih =>
    rw [lsbBits, bitsValue, ih, Nat.testBit_zero, pow_succ', Nat.mod_mul]
    rcases Nat.mod_two_eq_zero_or_one c with h | h <;> simp [h]

theorem lsbBits_bitsValue (l : List Bool) : lsbBits l.length (bitsValue l) = l := by
  refine bitsValue_inj (length_lsbBits _ _) ?_
  rw [bitsValue_lsbBits, Nat.mod_eq_of_lt (bitsValue_lt l)]

/-- A value read with its bits after `m` others. -/
theorem bitsValue_concat (l : List Bool) (b : Bool) :
    bitsValue (l ++ [b]) = bitsValue l ||| b.toNat <<< l.length := by
  have hlt := bitsValue_lt l
  rw [bitsValue_append, Nat.or_comm, Nat.shiftLeft_eq, mul_comm b.toNat,
    ← Nat.two_pow_add_eq_or_of_lt hlt, add_comm]
  simp [bitsValue]

/-- `msbBits`, read from the other end. -/
theorem bitsValue_msbBits_succ (n c : ℕ) :
    bitsValue (msbBits (n + 1) c) = bitsValue (msbBits n c) <<< 1 ||| (c >>> n &&& 1) := by
  have hbit : (c.testBit n).toNat = c >>> n &&& 1 := by
    rw [Nat.testBit, Nat.and_comm]
    rcases Nat.mod_two_eq_zero_or_one (c >>> n) with h | h <;> simp [Nat.and_one_is_mod, h]
  have hlt : (c.testBit n).toNat < 2 ^ 1 := by cases c.testBit n <;> decide
  rw [msbBits, bitsValue, ← hbit, Nat.shiftLeft_eq, mul_comm (bitsValue _),
    ← Nat.two_pow_add_eq_or_of_lt hlt, add_comm, pow_one]

/-! ## Words -/

section
variable {w : ℕ}

/-- The bits at the upper end of a word. -/
def topBits (w : ℕ) : List Bool → BitVec w
  | [] => 0#w
  | b :: bits => (if b then BitVec.twoPow w (w - 1) else 0#w) ^^^ topBits w bits >>> 1

theorem getLsbD_topBits (bits : List Bool) (i : ℕ) :
    (topBits w bits).getLsbD i = (decide (i < w) && bits[w - 1 - i]?.getD false) := by
  induction bits generalizing i with
  | nil => simp [topBits]
  | cons b bits ih =>
    by_cases hi : i < w
    · rw [topBits, BitVec.getLsbD_xor, BitVec.getLsbD_ushiftRight, ih, decide_eq_true hi,
        Bool.true_and]
      by_cases htop : i = w - 1
      · have hout : ¬1 + i < w := by omega
        have htwo : w - 1 < w := by omega
        rw [decide_eq_false hout, htop]
        cases b <;> simp [htwo]
      · have hin : 1 + i < w := by omega
        have hne : ¬w - 1 = i := fun h => htop h.symm
        have hsub : w - 1 - i = w - 1 - (1 + i) + 1 := by omega
        rw [hsub, List.getElem?_cons_succ]
        cases b <;> simp [hin, hne]
    · simp [hi, BitVec.getLsbD_of_ge _ _ (Nat.le_of_not_lt hi)]

/-- Numbers of `n` bits. -/
theorem topBits_msbBits {n : ℕ} (hn : n ≤ w) (c : ℕ) :
    topBits w (msbBits n c) = BitVec.ofNat w c <<< (w - n) := by
  refine BitVec.eq_of_getLsbD_eq fun i hi => ?_
  rw [getLsbD_topBits, getElem?_msbBits, BitVec.getLsbD_shiftLeft, BitVec.getLsbD_ofNat]
  by_cases hlow : i < w - n
  · have hout : ¬w - 1 - i < n := by omega
    simp [hi, hlow, hout]
  · have hin : w - 1 - i < n := by omega
    have hsub : n - 1 - (w - 1 - i) = i - (w - n) := by omega
    have hlt : i - (w - n) < w := by omega
    simp [hi, hlow, hin, hsub, hlt]

end

/-! ## Bytes -/

/-- The bits of a stream. -/
def byteBits (data : List UInt8) : List Bool := data.flatMap fun b => msbBits 8 b.toNat

theorem byteBits_cons (b : UInt8) (data : List UInt8) :
    byteBits (b :: data) = msbBits 8 b.toNat ++ byteBits data := rfl

@[simp] theorem byteBits_append (a b : List UInt8) : byteBits (a ++ b) = byteBits a ++ byteBits b :=
  List.flatMap_append

@[simp] theorem length_byteBits (data : List UInt8) : (byteBits data).length = 8 * data.length := by
  induction data with
  | nil => rfl
  | cons b data ih =>
    rw [byteBits_cons, List.length_append, ih, length_msbBits, List.length_cons]
    ring

theorem byteBits_drop (data : List UInt8) (m : ℕ) :
    byteBits (data.drop m) = (byteBits data).drop (8 * m) := by
  by_cases hm : m ≤ data.length
  · have hlen : (byteBits (data.take m)).length = 8 * m := by simp [hm]
    conv_rhs => rw [← List.take_append_drop m data, byteBits_append, ← hlen, List.drop_left]
  · rw [List.drop_eq_nil_of_le (by omega), List.drop_eq_nil_of_le (by simp; omega)]
    rfl

theorem byteBits_take (data : List UInt8) (m : ℕ) :
    byteBits (data.take m) = (byteBits data).take (8 * m) := by
  by_cases hm : m ≤ data.length
  · have hlen : (byteBits (data.take m)).length = 8 * m := by simp [hm]
    conv_rhs => rw [← List.take_append_drop m data, byteBits_append, ← hlen, List.take_left]
  · rw [List.take_of_length_le (by omega), List.take_of_length_le (by simp; omega)]

end Usbmidi9
