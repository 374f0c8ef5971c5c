/-
  The hash function SHA-256, as its standard defines it: over lists of bits, with constants
  that are the fractional parts of roots of the first primes.

  The constants are real numbers here.  `rootFraction_eq` says when an integer is one, and
  `nth_prime` is the table of the primes, so that a table of constants can be checked.
-/
import Usbmidi9.Lib.Bits

namespace Usbmidi9.Sha256

/-- The words of the algorithm. -/
abbrev Word := BitVec 32

/-! ## Functions -/

def ch (x y z : Word) : Word := (x &&& y) ^^^ (~~~x &&& z)

def maj (x y z : Word) : Word := (x &&& y) ^^^ (x &&& z) ^^^ (y &&& z)

def bigSigma0 (x : Word) : Word := x.rotateRight 2 ^^^ x.rotateRight 13 ^^^ x.rotateRight 22

def bigSigma1 (x : Word) : Word := x.rotateRight 6 ^^^ x.rotateRight 11 ^^^ x.rotateRight 25

def smallSigma0 (x : Word) : Word := x.rotateRight 7 ^^^ x.rotateRight 18 ^^^ x >>> 3

def smallSigma1 (x : Word) : Word := x.rotateRight 17 ^^^ x.rotateRight 19 ^^^ x >>> 10

/-! ## Constants -/

/-- The first 32 bits of the fractional part of the `k`th root of `p`. -/
noncomputable def rootFraction (k p : ℕ) : Word :=
  BitVec.ofNat 32 ⌊(p : ℝ) ^ ((k : ℝ)⁻¹) * 2 ^ 32⌋₊

/-- The constant of round `t`. -/
noncomputable def roundConstant (t : ℕ) : Word := rootFraction 3 (Nat.nth Nat.Prime t)

/-- Word `i` of the initial hash value. -/
noncomputable def initialWord (i : ℕ) : Word := rootFraction 2 (Nat.nth Nat.Prime i)

/-! ## Padding -/

/-- The zeros between the message and its length. -/
def zeroCount (length : ℕ) : ℕ := (447 + 512 - length % 512) % 512

/-- The message, a one, zeros, and the length of the message. -/
def pad (m : List Bool) : List Bool :=
  m ++ true :: List.replicate (zeroCount m.length) false ++ msbBits 64 m.length

/-- Block `i` of a padded message. -/
def block (m : List Bool) (i : ℕ) : List Bool := (m.drop (512 * i)).take 512

/-- Word `t` of a block. -/
def blockWord (b : List Bool) (t : ℕ) : Word := topBits 32 ((b.drop (32 * t)).take 32)

/-! ## The hash -/

/-- The message schedule of a block. -/
def schedule (b : List Bool) (t : ℕ) : Word :=
  if t < 16 then blockWord b t
  else smallSigma1 (schedule b (t - 2)) + schedule b (t - 7) +
    smallSigma0 (schedule b (t - 15)) + schedule b (t - 16)

/-- The working variables, or the hash value. -/
@[ext] structure State where
  a : Word
  b : Word
  c : Word
  d : Word
  e : Word
  f : Word
  g : Word
  h : Word

/-- One round, with its constant and its word of the schedule. -/
def State.round (s : State) (k w : Word) : State :=
  let t₁ := s.h + bigSigma1 s.e + ch s.e s.f s.g + k + w
  let t₂ := bigSigma0 s.a + maj s.a s.b s.c
  ⟨t₁ + t₂, s.a, s.b, s.c, s.d + t₁, s.e, s.f, s.g⟩

/-- The words of two states, added. -/
def State.add (s s' : State) : State :=
  ⟨s.a + s'.a, s.b + s'.b, s.c + s'.c, s.d + s'.d, s.e + s'.e, s.f + s'.f, s.g + s'.g, s.h + s'.h⟩

/-- The hash value after a block. -/
noncomputable def State.absorb (s : State) (b : List Bool) : State :=
  s.add ((List.range 64).foldl (fun s t => s.round (roundConstant t) (schedule b t)) s)

/-- The initial hash value. -/
noncomputable def initial : State :=
  ⟨initialWord 0, initialWord 1, initialWord 2, initialWord 3, initialWord 4, initialWord 5,
    initialWord 6, initialWord 7⟩

/-- The words of a state. -/
def State.words (s : State) : List Word := [s.a, s.b, s.c, s.d, s.e, s.f, s.g, s.h]

/-- The message digest. -/
noncomputable def digest (m : List Bool) : List Bool :=
  let p := pad m
  let s := (List.range (p.length / 512)).foldl (fun s i => s.absorb (block p i)) initial
  s.words.flatMap fun x => msbBits 32 x.toNat

/-! ## Tables of constants -/

/-- Integers between which the root lies. -/
theorem rootFraction_eq {k p n : ℕ} (hk : k ≠ 0) (hlow : n ^ k ≤ p * 2 ^ (32 * k))
    (hhigh : p * 2 ^ (32 * k) < (n + 1) ^ k) : rootFraction k p = BitVec.ofNat 32 n := by
  have hroot : 0 ≤ (p : ℝ) ^ ((k : ℝ)⁻¹) * 2 ^ 32 := by positivity
  have hpow : ((p : ℝ) ^ ((k : ℝ)⁻¹) * 2 ^ 32) ^ k = ((p * 2 ^ (32 * k) : ℕ) : ℝ) := by
    rw [mul_pow, Real.rpow_inv_natCast_pow (Nat.cast_nonneg p) hk, ← pow_mul]
    push_cast
    ring
  have hfloor : ⌊(p : ℝ) ^ ((k : ℝ)⁻¹) * 2 ^ 32⌋₊ = n := by
    refine (Nat.floor_eq_iff hroot).2 ⟨?_, ?_⟩
    · refine le_of_pow_le_pow_left₀ hk hroot ?_
      rw [hpow]
      exact_mod_cast hlow
    · refine lt_of_pow_lt_pow_left₀ k (by positivity) ?_
      rw [hpow]
      exact_mod_cast hhigh
  rw [rootFraction, hfloor]

/-- The numbers below a bound with a property, in order. -/
theorem nth_eq_getElem (p : ℕ → Prop) [DecidablePred p] (n : ℕ) {t : ℕ}
    (ht : t < ((List.range n).filter p).length) : Nat.nth p t = ((List.range n).filter p)[t] := by
  induction n with
  | zero => simp at ht
  | succ n ih =>
    simp only [List.range_succ, List.filter_append] at ht ⊢
    by_cases hlt : t < ((List.range n).filter p).length
    · rw [List.getElem_append_left hlt, ih hlt]
    · by_cases hp : p n
      · have hcount : t = Nat.count p n := by
          rw [Nat.count, List.countP_eq_length_filter]
          simp [hp] at ht hlt ⊢
          omega
        subst hcount
        rw [Nat.nth_count hp, List.getElem_append_right (by omega)]
        simp [hp]
      · simp [hp] at ht
        omega

/-- The first 64 primes. -/
def primes : List ℕ :=
  [2, 3, 5, 7, 11, 13, 17, 19, 23, 29, 31, 37, 41, 43, 47, 53, 59, 61, 67, 71, 73, 79, 83, 89, 97,
    101, 103, 107, 109, 113, 127, 131, 137, 139, 149, 151, 157, 163, 167, 173, 179, 181, 191, 193,
    197, 199, 211, 223, 227, 229, 233, 239, 241, 251, 257, 263, 269, 271, 277, 281, 283, 293, 307,
    311]

/-- What has no small divisor is a prime. -/
theorem prime_iff {n : ℕ} (hn : n < 312) :
    Nat.Prime n ↔ 2 ≤ n ∧ ∀ m < 18, 2 ≤ m → m < n → ¬m ∣ n := by
  constructor
  · intro h
    refine ⟨h.two_le, ?_⟩
    intro m _ hm hlt hdvd
    rcases (Nat.dvd_prime h).1 hdvd with rfl | rfl <;> omega
  · rintro ⟨htwo, hall⟩
    refine Nat.prime_def_le_sqrt.2 ⟨htwo, ?_⟩
    intro m hm hsqrt
    have hsq : m * m ≤ n := Nat.le_sqrt.1 hsqrt
    have hsmall : m < 18 := by nlinarith
    have hlt : m < n := by nlinarith
    exact hall m hsmall hm hlt

theorem filter_prime : (List.range 312).filter (fun n => Nat.Prime n) = primes := by
  have hsieve : (List.range 312).filter
      (fun n => 2 ≤ n ∧ ∀ m < 18, 2 ≤ m → m < n → ¬m ∣ n) = primes := by decide +kernel
  rw [← hsieve]
  refine List.filter_congr ?_
  intro n hn
  rw [decide_eq_decide]
  exact prime_iff (List.mem_range.1 hn)

theorem nth_prime {t : ℕ} (ht : t < 64) : Nat.nth Nat.Prime t = primes.getD t 0 := by
  have hlen : t < ((List.range 312).filter (fun n => Nat.Prime n)).length := by
    rw [filter_prime]
    exact ht
  rw [nth_eq_getElem Nat.Prime 312 hlen]
  simp only [filter_prime]
  rw [List.getD_eq_getElem]

/-- A table of integers that lie between the roots of the primes. -/
theorem rootFraction_nth {k : ℕ} (hk : k ≠ 0) {t n : ℕ} (ht : t < 64)
    (h : n ^ k ≤ primes.getD t 0 * 2 ^ (32 * k) ∧ primes.getD t 0 * 2 ^ (32 * k) < (n + 1) ^ k) :
    rootFraction k (Nat.nth Nat.Prime t) = BitVec.ofNat 32 n := by
  rw [nth_prime ht]
  exact rootFraction_eq hk h.1 h.2

end Usbmidi9.Sha256
