/-
  USBMIDI9 — the file hash (`pefcheck/src/sha256.rs`).

  `sha256_eq`: what the code computes is SHA-256 as the standard defines it, its table of
  constants included.
-/
import Usbmidi9.Lib.Sha256
import Usbmidi9.Pef.Bytes

namespace Usbmidi9

open Outcome

/-! ## The code -/

/-- `K`. -/
def sha256K : List (BitVec 32) :=
  [0x428a2f98, 0x71374491, 0xb5c0fbcf, 0xe9b5dba5, 0x3956c25b, 0x59f111f1, 0x923f82a4, 0xab1c5ed5,
    0xd807aa98, 0x12835b01, 0x243185be, 0x550c7dc3, 0x72be5d74, 0x80deb1fe, 0x9bdc06a7, 0xc19bf174,
    0xe49b69c1, 0xefbe4786, 0x0fc19dc6, 0x240ca1cc, 0x2de92c6f, 0x4a7484aa, 0x5cb0a9dc, 0x76f988da,
    0x983e5152, 0xa831c66d, 0xb00327c8, 0xbf597fc7, 0xc6e00bf3, 0xd5a79147, 0x06ca6351, 0x14292967,
    0x27b70a85, 0x2e1b2138, 0x4d2c6dfc, 0x53380d13, 0x650a7354, 0x766a0abb, 0x81c2c92e, 0x92722c85,
    0xa2bfe8a1, 0xa81a664b, 0xc24b8b70, 0xc76c51a3, 0xd192e819, 0xd6990624, 0xf40e3585, 0x106aa070,
    0x19a4c116, 0x1e376c08, 0x2748774c, 0x34b0bcb5, 0x391c0cb3, 0x4ed8aa4a, 0x5b9cca4f, 0x682e6ff3,
    0x748f82ee, 0x78a5636f, 0x84c87814, 0x8cc70208, 0x90befffa, 0xa4506ceb, 0xbef9a3f7, 0xc67178f2]

/-- `to_be_bytes` of a `u64`. -/
def u64ToBe (v : UInt64) : List UInt8 := u32ToBe (v >>> 32).toUInt32 ++ u32ToBe v.toUInt32

/-- `while msg.len() % 64 != 56`, at most `fuel` times. -/
def padZeros : ℕ → List UInt8 → Outcome Empty (List UInt8)
  | 0, _ => .panic
  | fuel + 1, msg =>
    if msg.length % 64 ≠ 56 then do
      let msg ← extend msg [0]
      padZeros fuel msg
    else .ok msg

/-- The body of the loop that extends the message schedule. -/
def scheduleWord (i : ℕ) (w : Vector (BitVec 32) 64) : Outcome Empty (Vector (BitVec 32) 64) := do
  let w15 ← get w.toList (i - 15)
  let w2 ← get w.toList (i - 2)
  let w16 ← get w.toList (i - 16)
  let w7 ← get w.toList (i - 7)
  let s0 := w15.rotateRight 7 ^^^ w15.rotateRight 18 ^^^ (w15 >>> 3)
  let s1 := w2.rotateRight 17 ^^^ w2.rotateRight 19 ^^^ (w2 >>> 10)
  modify w i fun _ => .ok (w16 + s0 + w7 + s1)

/-- A word of the chunk. -/
def chunkWord (chunk : List UInt8) (i : ℕ) : Outcome Empty (BitVec 32) := do
  let v ← u32At chunk (i * 4)
  .ok v.toBitVec

/-- `w`. -/
def messageSchedule (chunk : List UInt8) : Outcome Empty (Vector (BitVec 32) 64) := do
  let w ← Outcome.fill (chunkWord chunk) 0 16 (Vector.replicate 64 0)
  foldl (fun w i => scheduleWord i w) (List.range' 16 48) w

/-- `h`, and the variables of the rounds. -/
structure Sha256Vars where
  a : BitVec 32
  b : BitVec 32
  c : BitVec 32
  d : BitVec 32
  e : BitVec 32
  f : BitVec 32
  g : BitVec 32
  hh : BitVec 32
deriving DecidableEq, Repr

/-- The first `h`. -/
def sha256H : Sha256Vars :=
  ⟨0x6a09e667, 0xbb67ae85, 0x3c6ef372, 0xa54ff53a, 0x510e527f, 0x9b05688c, 0x1f83d9ab, 0x5be0cd19⟩

/-- The body of the loop of the rounds. -/
def sha256Round (w : Vector (BitVec 32) 64) (v : Sha256Vars) (i : ℕ) : Outcome Empty Sha256Vars := do
  let k ← get sha256K i
  let wi ← get w.toList i
  let s1 := v.e.rotateRight 6 ^^^ v.e.rotateRight 11 ^^^ v.e.rotateRight 25
  let ch := (v.e &&& v.f) ^^^ (~~~v.e &&& v.g)
  let t1 := v.hh + s1 + ch + k + wi
  let s0 := v.a.rotateRight 2 ^^^ v.a.rotateRight 13 ^^^ v.a.rotateRight 22
  let maj := (v.a &&& v.b) ^^^ (v.a &&& v.c) ^^^ (v.b &&& v.c)
  let t2 := s0 + maj
  .ok
    { hh := v.g
      g := v.f
      f := v.e
      e := v.d + t1
      d := v.c
      c := v.b
      b := v.a
      a := t1 + t2 }

/-- The body of the loop over the chunks. -/
def sha256Chunk (h : Sha256Vars) (chunk : List UInt8) : Outcome Empty Sha256Vars := do
  let w ← messageSchedule chunk
  let v ← foldl (sha256Round w) (List.range 64) h
  .ok ⟨h.a + v.a, h.b + v.b, h.c + v.c, h.d + v.d, h.e + v.e, h.f + v.f, h.g + v.g, h.hh + v.hh⟩

/-- `msg.as_chunks::<64>().0`. -/
def chunks64 (msg : List UInt8) : List (List UInt8) :=
  (List.range (msg.length / 64)).map fun i => (msg.drop (64 * i)).take 64

/-- `h.iter()`. -/
def Sha256Vars.words (h : Sha256Vars) : List (BitVec 32) := [h.a, h.b, h.c, h.d, h.e, h.f, h.g, h.hh]

/-- `sha256`. -/
def sha256 (data : Slice) : Outcome Empty (List UInt8) := do
  let bitlen := UInt64.ofNat data.bytes.length * 8
  let msg ← extend data.bytes [0x80]
  let msg ← padZeros 64 msg
  let msg ← extend msg (u64ToBe bitlen)
  let h ← foldl sha256Chunk (chunks64 msg) sha256H
  .ok (h.words.flatMap fun word => u32ToBe (UInt32.ofBitVec word))

/-- `hex`. -/
def hex (bytes : List UInt8) : String := String.join (bytes.map fun b => hexPadded 2 b.toNat)

/-! ## Constants -/

/-- The integers whose fractional parts the constants are, `n` in front of them. -/
def rootOf (n : ℕ) (c : BitVec 32) : ℕ := n * 2 ^ 32 + c.toNat

theorem sha256K_root : ∀ t : Fin 64, ∃ n : Fin 7,
    rootOf n (sha256K.getD t 0) ^ 3 ≤ Sha256.primes.getD t 0 * 2 ^ (32 * 3) ∧
      Sha256.primes.getD t 0 * 2 ^ (32 * 3) < (rootOf n (sha256K.getD t 0) + 1) ^ 3 := by
  decide +kernel

theorem sha256H_root : ∀ t : Fin 8, ∃ n : Fin 5,
    rootOf n (sha256H.words.getD t 0) ^ 2 ≤ Sha256.primes.getD t 0 * 2 ^ (32 * 2) ∧
      Sha256.primes.getD t 0 * 2 ^ (32 * 2) < (rootOf n (sha256H.words.getD t 0) + 1) ^ 2 := by
  decide +kernel

theorem ofNat_rootOf (n : ℕ) (c : BitVec 32) : BitVec.ofNat 32 (rootOf n c) = c := by
  refine BitVec.eq_of_toNat_eq ?_
  rw [rootOf, BitVec.toNat_ofNat, Nat.mul_add_mod_self_right, Nat.mod_eq_of_lt c.isLt]

/-- **The table** holds the fractional parts of the cube roots of the primes. -/
theorem sha256K_eq {t : ℕ} (ht : t < 64) : sha256K[t]? = some (Sha256.roundConstant t) := by
  obtain ⟨n, hn⟩ := sha256K_root ⟨t, ht⟩
  have hroot := Sha256.rootFraction_nth (by decide) ht hn
  rw [ofNat_rootOf] at hroot
  have hlen : t < sha256K.length := ht
  rw [Sha256.roundConstant, hroot, List.getD_eq_getElem _ _ hlen, List.getElem?_eq_getElem hlen]

/-- **The first hash value** holds those of the square roots. -/
theorem sha256H_eq {t : ℕ} (ht : t < 8) : sha256H.words.getD t 0 = Sha256.initialWord t := by
  obtain ⟨n, hn⟩ := sha256H_root ⟨t, ht⟩
  have hroot := Sha256.rootFraction_nth (by decide) (show t < 64 by omega) hn
  rw [ofNat_rootOf] at hroot
  exact hroot.symm

/-! ## Bytes -/

theorem byteBits_word (a b c d : UInt8) :
    byteBits [a, b, c, d] = msbBits 32 (u32FromBe a b c d).toNat := by
  have ha := a.toNat_lt
  have hb := b.toNat_lt
  have hc := c.toNat_lt
  have hd := d.toNat_lt
  have hsplit : ∀ k n, msbBits (8 + k) n = msbBits 8 (n / 2 ^ k % 2 ^ 8) ++ msbBits k n := by
    intro k n
    rw [msbBits_add, msbBits_mod]
  obtain ⟨n, hn⟩ : ∃ n, n =
    a.toNat * 16777216 + (b.toNat * 65536 + (c.toNat * 256 + d.toNat)) := ⟨_, rfl⟩
  have h₁ : n / 2 ^ 24 % 2 ^ 8 = a.toNat := by omega
  have h₂ : n / 2 ^ 16 % 2 ^ 8 = b.toNat := by omega
  have h₃ : n / 2 ^ 8 % 2 ^ 8 = c.toNat := by omega
  have h₄ : n / 2 ^ 0 % 2 ^ 8 = d.toNat := by omega
  calc byteBits [a, b, c, d] = msbBits 8 a.toNat ++ (msbBits 8 b.toNat ++
        (msbBits 8 c.toNat ++ (msbBits 8 d.toNat ++ msbBits 0 n))) := rfl
    _ = msbBits (8 + (8 + (8 + (8 + 0)))) n := by
        rw [hsplit, hsplit, hsplit, hsplit, h₄, h₁, h₂, h₃]
    _ = msbBits 32 (u32FromBe a b c d).toNat := by rw [toNat_u32FromBe, ← hn]

theorem byteBits_u32ToBe (v : UInt32) : byteBits (u32ToBe v) = msbBits 32 v.toNat := by
  rw [u32ToBe, byteBits_word, u32FromBe_u32ToBe]

theorem byteBits_u64ToBe (v : UInt64) : byteBits (u64ToBe v) = msbBits 64 v.toNat := by
  have hhigh : (v >>> 32).toUInt32.toNat = v.toNat / 2 ^ 32 % 2 ^ 32 := by
    rw [UInt64.toNat_toUInt32, UInt64.toNat_shiftRight, Nat.shiftRight_eq_div_pow]
    rfl
  have hlow : v.toUInt32.toNat = v.toNat % 2 ^ 32 := UInt64.toNat_toUInt32 v
  calc byteBits (u64ToBe v)
      = msbBits 32 (v.toNat / 2 ^ 32 % 2 ^ 32) ++ msbBits 32 (v.toNat % 2 ^ 32) := by
        rw [u64ToBe, byteBits_append, byteBits_u32ToBe, byteBits_u32ToBe, hhigh, hlow]
    _ = msbBits (32 + 32) v.toNat := by rw [msbBits_mod, msbBits_mod, msbBits_add]

/-- A word of a chunk. -/
theorem blockWord_byteBits {chunk : List UInt8} {t : ℕ} (h : t * 4 + 4 ≤ chunk.length) :
    Sha256.blockWord (byteBits chunk) t = (wordAt chunk (t * 4)).toBitVec := by
  have hfour : (chunk.drop (t * 4)).take 4 = [chunk.getD (t * 4) 0, chunk.getD (t * 4 + 1) 0,
      chunk.getD (t * 4 + 2) 0, chunk.getD (t * 4 + 3) 0] := by
    refine List.ext_getElem (by simp; omega) ?_
    intro i hi _
    have hlt : i < 4 := by simp at hi; omega
    interval_cases i <;> simp <;> rw [List.getElem?_eq_getElem (by omega)] <;> rfl
  have hbits : ((byteBits chunk).drop (32 * t)).take 32 =
      msbBits 32 (wordAt chunk (t * 4)).toNat := by
    calc ((byteBits chunk).drop (32 * t)).take 32
        = ((byteBits chunk).drop (8 * (t * 4))).take (8 * 4) := by
          rw [show 32 * t = 8 * (t * 4) by ring]
      _ = byteBits ((chunk.drop (t * 4)).take 4) := by rw [byteBits_take, byteBits_drop]
      _ = msbBits 32 (wordAt chunk (t * 4)).toNat := by rw [hfour, byteBits_word, wordAt]
  rw [Sha256.blockWord, hbits, topBits_msbBits le_rfl]
  exact (BitVec.shiftLeft_zero _).trans (BitVec.ofNat_toNat _ _ |>.trans (BitVec.setWidth_eq _))

/-! ## Padding -/

theorem padZeros_eq {z fuel : ℕ} {msg : List UInt8} (hz : (msg.length + z) % 64 = 56) (hlt : z < 64)
    (hfuel : z < fuel) (hmax : msg.length + z ≤ isizeMax) :
    padZeros fuel msg = .ok (msg ++ List.replicate z 0) := by
  induction z generalizing msg fuel with
  | zero =>
    obtain ⟨fuel, rfl⟩ : ∃ n, fuel = n + 1 := ⟨fuel - 1, by omega⟩
    have hdone : ¬msg.length % 64 ≠ 56 := not_not.2 hz
    rw [padZeros, if_neg hdone, List.replicate_zero, List.append_nil]
  | succ z ih =>
    obtain ⟨fuel, rfl⟩ : ∃ n, fuel = n + 1 := ⟨fuel - 1, by omega⟩
    have hmore : msg.length % 64 ≠ 56 := by omega
    have hrest := @ih fuel (msg ++ [0]) (by simp; omega) (by omega) (by omega)
      (by simp; omega)
    rw [padZeros, if_pos hmore, extend_eq (by simp; omega), ok_bind, hrest, List.append_assoc]
    rfl

/-- The zeros that the code appends. -/
def zeroBytes (length : ℕ) : ℕ := (55 + 64 - length % 64) % 64

/-- What the code hashes. -/
def paddedBytes (data : List UInt8) : List UInt8 :=
  data ++ [0x80] ++ List.replicate (zeroBytes data.length) 0 ++
    u64ToBe (UInt64.ofNat data.length * 8)

theorem byteBits_replicate (z : ℕ) :
    byteBits (List.replicate z 0) = List.replicate (8 * z) false := by
  induction z with
  | zero => rfl
  | succ z ih =>
    rw [List.replicate_succ, byteBits_cons, ih, Nat.mul_succ, Nat.add_comm, List.replicate_add]
    rfl

/-- **The padding** is the standard's. -/
theorem byteBits_paddedBytes (data : List UInt8) :
    byteBits (paddedBytes data) = Sha256.pad (byteBits data) := by
  have hcount : Sha256.zeroCount (8 * data.length) = 7 + 8 * zeroBytes data.length := by
    rw [Sha256.zeroCount, zeroBytes]
    omega
  have hone : byteBits [0x80] = true :: List.replicate 7 false := by decide
  have hlength : msbBits 64 (UInt64.ofNat data.length * 8).toNat = msbBits 64 (8 * data.length) := by
    have hval : (UInt64.ofNat data.length * 8).toNat = 8 * data.length % 2 ^ 64 := by
      rw [UInt64.toNat_mul, mul_comm]
      simp
    rw [hval, msbBits_mod]
  rw [paddedBytes, byteBits_append, byteBits_append, byteBits_append, hone, byteBits_replicate,
    byteBits_u64ToBe, hlength, Sha256.pad, length_byteBits, hcount, List.replicate_add]
  simp only [List.append_assoc, List.cons_append]

/-! ## The message schedule -/

/-- The first `n` words are those of the schedule of a block. -/
def ScheduledTo (b : List Bool) (n : ℕ) (w : Vector (BitVec 32) 64) : Prop :=
  ∀ t < n, w.toList[t]? = some (Sha256.schedule b t)

theorem ScheduledTo.get {b : List Bool} {n t : ℕ} {w : Vector (BitVec 32) 64}
    (h : ScheduledTo b n w) (ht : t < n) :
    (get w.toList t : Outcome Empty _) = .ok (Sha256.schedule b t) := get_eq_ok.2 (h t ht)

/-- The words that are read from the chunk. -/
theorem fill_scheduled {chunk : List UInt8} (hlen : chunk.length = 64) :
    ∃ w, Outcome.fill (chunkWord chunk) 0 16 (Vector.replicate 64 0) = .ok w ∧
      ScheduledTo (byteBits chunk) 16 w := by
  have hword : ∀ j < 0 + 16, chunkWord chunk j = .ok (Sha256.blockWord (byteBits chunk) j) := by
    intro j hj
    rw [chunkWord, u32At_eq (by omega), ok_bind, blockWord_byteBits (by omega)]
  obtain ⟨w, hfill, htake⟩ := fill_eq (by omega) hword (Vector.replicate 64 0)
  refine ⟨w, hfill, ?_⟩
  intro t ht
  have hget : w.toList[t]? = (w.toList.take (0 + 16))[t]? := (List.getElem?_take_of_lt ht).symm
  rw [hget, htake, List.take_zero, List.nil_append, List.getElem?_map,
    List.getElem?_range' (by omega), Sha256.schedule, if_pos ht]
  simp

/-- **One more word.** -/
theorem scheduleWord_scheduled {b : List Bool} {i : ℕ} {w : Vector (BitVec 32) 64} (hi : 16 ≤ i)
    (hlt : i < 64) (h : ScheduledTo b i w) :
    ∃ w', scheduleWord i w = .ok w' ∧ ScheduledTo b (i + 1) w' := by
  have hnext : Sha256.schedule b i = Sha256.schedule b (i - 16) +
      Sha256.smallSigma0 (Sha256.schedule b (i - 15)) + Sha256.schedule b (i - 7) +
      Sha256.smallSigma1 (Sha256.schedule b (i - 2)) := by
    rw [Sha256.schedule, if_neg (by omega)]
    ring
  refine ⟨w.set i (Sha256.schedule b i), ?_, ?_⟩
  · rw [scheduleWord, h.get (by omega), ok_bind, h.get (by omega), ok_bind, h.get (by omega),
      ok_bind, h.get (by omega), ok_bind, modify_ok hlt, hnext]
    rfl
  · intro t ht
    rw [Vector.toList_set]
    rcases Nat.lt_succ_iff_lt_or_eq.1 ht with hold | rfl
    · rw [List.getElem?_set_ne (by omega), h t hold]
    · rw [List.getElem?_set_self (by simpa using hlt)]

theorem extend_scheduled {b : List Bool} {n i : ℕ} {w : Vector (BitVec 32) 64} (hi : 16 ≤ i)
    (hle : i + n ≤ 64) (h : ScheduledTo b i w) :
    ∃ w', foldl (fun w i => scheduleWord i w) (List.range' i n) w = .ok w' ∧
      ScheduledTo b (i + n) w' := by
  induction n generalizing i w with
  | zero => exact ⟨w, rfl, h⟩
  | succ n ih =>
    obtain ⟨w₁, hfirst, h₁⟩ := scheduleWord_scheduled hi (by omega) h
    obtain ⟨w₂, hrest, h₂⟩ := ih (by omega) (by omega) h₁
    refine ⟨w₂, ?_, ?_⟩
    · rw [List.range'_succ, foldl, hfirst]
      exact hrest
    · rwa [Nat.add_right_comm] at h₂

/-- **The message schedule** of a chunk. -/
theorem messageSchedule_eq {chunk : List UInt8} (hlen : chunk.length = 64) :
    ∃ w, messageSchedule chunk = .ok w ∧ ScheduledTo (byteBits chunk) 64 w := by
  obtain ⟨w₁, hfill, h₁⟩ := fill_scheduled hlen
  obtain ⟨w₂, hrest, h₂⟩ := extend_scheduled (n := 48) (by omega) (by omega) h₁
  refine ⟨w₂, ?_, h₂⟩
  unfold messageSchedule
  rw [hfill, ok_bind]
  exact hrest

/-! ## Rounds -/

/-- The state that the variables stand for. -/
def Sha256Vars.state (v : Sha256Vars) : Sha256.State := ⟨v.a, v.b, v.c, v.d, v.e, v.f, v.g, v.hh⟩

/-- The variables with the words of a state. -/
def Sha256Vars.ofState (s : Sha256.State) : Sha256Vars := ⟨s.a, s.b, s.c, s.d, s.e, s.f, s.g, s.h⟩

@[simp] theorem state_ofState (s : Sha256.State) : (Sha256Vars.ofState s).state = s := rfl

theorem sha256H_state : sha256H.state = Sha256.initial := by
  have h := fun i (hi : i < 8) => (sha256H_eq hi).symm
  rw [Sha256.initial, h 0 (by decide), h 1 (by decide), h 2 (by decide), h 3 (by decide),
    h 4 (by decide), h 5 (by decide), h 6 (by decide), h 7 (by decide)]
  rfl

theorem sha256Round_eq {b : List Bool} {w : Vector (BitVec 32) 64} (hw : ScheduledTo b 64 w)
    (v : Sha256Vars) {t : ℕ} (ht : t < 64) :
    sha256Round w v t = .ok (.ofState
      (v.state.round (Sha256.roundConstant t) (Sha256.schedule b t))) := by
  rw [sha256Round, get_eq_ok.2 (sha256K_eq ht), ok_bind, hw.get ht, ok_bind]
  rfl

/-- **A chunk** is absorbed as a block. -/
theorem sha256Chunk_eq {chunk : List UInt8} (hlen : chunk.length = 64) (h : Sha256Vars) :
    sha256Chunk h chunk = .ok (.ofState (h.state.absorb (byteBits chunk))) := by
  obtain ⟨w, hschedule, hw⟩ := messageSchedule_eq hlen
  obtain ⟨v, hrounds, hv⟩ := foldl_sim
    (R := fun v s => Sha256Vars.state v = s) (f := sha256Round w)
    (g := fun s t => s.round (Sha256.roundConstant t) (Sha256.schedule (byteBits chunk) t))
    (l := List.range 64) (b := h)
    (fun v s t ht hs => ⟨_, sha256Round_eq hw v (List.mem_range.1 ht), by rw [state_ofState, hs]⟩) rfl
  rw [sha256Chunk, hschedule, ok_bind, hrounds, ok_bind, Sha256.State.absorb, ← hv]
  rfl

/-! ## The hash -/

theorem block_byteBits (msg : List UInt8) (i : ℕ) :
    Sha256.block (byteBits msg) i = byteBits ((msg.drop (64 * i)).take 64) := by
  rw [byteBits_take, byteBits_drop, Sha256.block, show 512 * i = 8 * (64 * i) by ring]

theorem length_chunk {msg chunk : List UInt8} (h : chunk ∈ chunks64 msg) : chunk.length = 64 := by
  obtain ⟨i, hi, rfl⟩ := List.mem_map.1 h
  have hlt := List.mem_range.1 hi
  rw [List.length_take, List.length_drop]
  omega

theorem length_paddedBytes (data : List UInt8) : (paddedBytes data).length ≤ data.length + 72 := by
  have hzero : zeroBytes data.length < 64 := Nat.mod_lt _ (by decide)
  have hword : (u64ToBe (UInt64.ofNat data.length * 8)).length = 8 := rfl
  simp only [paddedBytes, List.length_append, List.length_replicate, hword, List.length_singleton]
  omega

/-- **The hash is SHA-256**: of every file to which the padding can be appended. -/
theorem sha256_eq (data : Slice) (hmax : data.bytes.length + 72 ≤ isizeMax) :
    ∃ hash, sha256 data = .ok hash ∧ byteBits hash = Sha256.digest (byteBits data.bytes) := by
  have hzero : zeroBytes data.bytes.length < 64 := Nat.mod_lt _ (by decide)
  have hmod : (data.bytes.length + 1 + zeroBytes data.bytes.length) % 64 = 56 := by
    rw [zeroBytes]
    omega
  have hpad := @padZeros_eq (zeroBytes data.bytes.length) 64 (data.bytes ++ [0x80])
    (by simpa using hmod) hzero hzero (by simp; omega)
  have hlen := length_paddedBytes data.bytes
  obtain ⟨h, hchunks, hstate⟩ := foldl_sim
    (R := fun v s => Sha256Vars.state v = s) (f := sha256Chunk)
    (g := fun s chunk => s.absorb (byteBits chunk)) (l := chunks64 (paddedBytes data.bytes))
    (b := sha256H)
    (fun v s chunk hmem hs => ⟨_, sha256Chunk_eq (length_chunk hmem) v, by rw [state_ofState, hs]⟩)
    rfl
  refine ⟨h.words.flatMap fun word => u32ToBe (UInt32.ofBitVec word), ?_, ?_⟩
  · have hfits : (data.bytes ++ [0x80] ++ List.replicate (zeroBytes data.bytes.length) 0).length +
        (u64ToBe (UInt64.ofNat data.bytes.length * 8)).length ≤ isizeMax := by
      rw [← List.length_append]
      exact hlen.trans hmax
    rw [sha256, extend_eq (by simp; omega), ok_bind, hpad, ok_bind, extend_eq hfits, ok_bind]
    exact bind_eq_ok.2 ⟨h, hchunks, rfl⟩
  · have hblocks : h.state = (List.range ((byteBits (paddedBytes data.bytes)).length / 512)).foldl
        (fun s i => s.absorb (Sha256.block (byteBits (paddedBytes data.bytes)) i))
        Sha256.initial := by
      have hcount : (byteBits (paddedBytes data.bytes)).length / 512 =
          (paddedBytes data.bytes).length / 64 := by
        rw [length_byteBits]
        omega
      rw [hstate, chunks64, List.foldl_map, sha256H_state, hcount]
      simp only [block_byteBits]
    rw [Sha256.digest, ← byteBits_paddedBytes, ← hblocks]
    simp only [Sha256Vars.words, Sha256.State.words, Sha256Vars.state, List.flatMap_cons,
      List.flatMap_nil, byteBits_append, byteBits_u32ToBe]
    rfl

/-! ## The text -/

theorem hexPadded_byte : ∀ n : Fin 256,
    (hexPadded 2 n).toList = [Nat.digitChar (n / 16), Nat.digitChar (n % 16)] := by
  decide +kernel

/-- The two digits of every byte. -/
def nibbles (bytes : List UInt8) : List ℕ := bytes.flatMap fun b => [b.toNat / 16, b.toNat % 16]

theorem toList_hex (bytes : List UInt8) : (hex bytes).toList = (nibbles bytes).map Nat.digitChar := by
  rw [hex, String.toList_join, List.flatMap_map, nibbles, List.map_flatMap]
  refine List.flatMap_congr fun b _ => ?_
  exact hexPadded_byte ⟨b.toNat, b.toNat_lt⟩

theorem nibbles_lt {bytes : List UInt8} {d : ℕ} (h : d ∈ nibbles bytes) : d < 16 := by
  obtain ⟨b, -, hd⟩ := List.mem_flatMap.1 h
  have hb := b.toNat_lt
  rcases List.mem_pair.1 hd with rfl | rfl
  · omega
  · omega

theorem nibbles_bits (bytes : List UInt8) : (nibbles bytes).flatMap (msbBits 4) = byteBits bytes := by
  induction bytes with
  | nil => rfl
  | cons b bytes ih =>
    have hlow : msbBits 4 (b.toNat % 16) = msbBits 4 b.toNat := msbBits_mod 4 b.toNat
    calc (nibbles (b :: bytes)).flatMap (msbBits 4)
        = msbBits 4 (b.toNat / 16) ++ (msbBits 4 (b.toNat % 16) ++
            (nibbles bytes).flatMap (msbBits 4)) := by
          simp [nibbles]
      _ = msbBits (4 + 4) b.toNat ++ byteBits bytes := by
          rw [hlow, ih, msbBits_add, List.append_assoc]
          rfl

/-- **What is printed** of a file: the digits whose bits are the digest. -/
theorem hex_sha256 (data : Slice) (hmax : data.bytes.length + 72 ≤ isizeMax) :
    ∃ hash, ∃ digits : List ℕ, sha256 data = .ok hash ∧ (hex hash).toList = digits.map Nat.digitChar ∧
      (∀ d ∈ digits, d < 16) ∧
      digits.flatMap (msbBits 4) = Sha256.digest (byteBits data.bytes) := by
  obtain ⟨hash, hrun, hdigest⟩ := sha256_eq data hmax
  refine ⟨hash, nibbles hash, hrun, toList_hex hash, fun d => nibbles_lt, ?_⟩
  rw [nibbles_bits, hdigest]

theorem hex_sha256_abc :
    ∃ hash, ∃ digits : List ℕ, sha256 ⟨[97, 98, 99], by decide⟩ = .ok hash ∧
      (hex hash).toList = digits.map Nat.digitChar ∧ (∀ d ∈ digits, d < 16) ∧
      digits.flatMap (msbBits 4) = Sha256.digest (byteBits [97, 98, 99]) :=
  hex_sha256 ⟨[97, 98, 99], by decide⟩ (by decide)

end Usbmidi9
