/-
  Streams of bits that are cut anew: numbers of `m` bits go into an accumulator, from
  whose upper end numbers of `k` bits are taken.

  An accumulator may keep the bits that were taken, or mask them; `keep` says which, and
  nothing depends on it.  `regroup_bits`: the bits are the same, in the same order.
  `regroup_unique`: the numbers that come out are determined by the bits.
-/
import Usbmidi9.Lib.Bits

namespace Usbmidi9

/-- The numbers of `k` bits that `nbits` bits hold, at most `fuel` of them, and the number
    of the bits that remain. -/
def takeGroups (k : ℕ) : ℕ → ℕ → ℕ → List ℕ × ℕ
  | 0, _, nbits => ([], nbits)
  | fuel + 1, bits, nbits =>
    if k ≤ nbits then
      let rest := takeGroups k fuel bits (nbits - k)
      (((bits >>> (nbits - k)) &&& (2 ^ k - 1)) :: rest.1, rest.2)
    else ([], nbits)

/-- The numbers that come out, and the accumulator at the end. -/
def regroup (m k : ℕ) (keep : ℕ → ℕ → ℕ) : List ℕ → ℕ → ℕ → List ℕ × ℕ × ℕ
  | [], bits, nbits => ([], bits, nbits)
  | v :: vs, bits, nbits =>
    let bits := bits <<< m ||| v
    let out := takeGroups k (nbits + m) bits (nbits + m)
    let rest := regroup m k keep vs (keep bits out.2) out.2
    (out.1 ++ rest.1, rest.2)

theorem takeGroups_bits {k : ℕ} (hk : 0 < k) {fuel nbits : ℕ} (hfuel : nbits ≤ fuel) (bits : ℕ) :
    (takeGroups k fuel bits nbits).1.flatMap (msbBits k) ++
        msbBits (takeGroups k fuel bits nbits).2 bits = msbBits nbits bits ∧
      (takeGroups k fuel bits nbits).2 < k := by
  induction fuel generalizing nbits with
  | zero =>
    obtain rfl : nbits = 0 := by omega
    exact ⟨rfl, hk⟩
  | succ fuel ih =>
    rw [takeGroups]
    split_ifs with hle
    · obtain ⟨hbits, hlt⟩ := @ih (nbits - k) (by omega)
      refine ⟨?_, hlt⟩
      have hsum : k + (nbits - k) = nbits := by omega
      calc _ = msbBits k ((bits >>> (nbits - k)) &&& (2 ^ k - 1)) ++ msbBits (nbits - k) bits := by
            rw [List.flatMap_cons, List.append_assoc, hbits]
        _ = msbBits k (bits / 2 ^ (nbits - k)) ++ msbBits (nbits - k) bits := by
            rw [Nat.and_two_pow_sub_one_eq_mod, msbBits_mod, Nat.shiftRight_eq_div_pow]
        _ = msbBits nbits bits := by rw [← msbBits_add, hsum]
    · exact ⟨rfl, Nat.lt_of_not_le hle⟩

theorem takeGroups_lt {k fuel bits nbits v : ℕ} (hv : v ∈ (takeGroups k fuel bits nbits).1) :
    v < 2 ^ k := by
  induction fuel generalizing nbits with
  | zero => simp [takeGroups] at hv
  | succ fuel ih =>
    rw [takeGroups] at hv
    split_ifs at hv
    · rcases List.mem_cons.1 hv with rfl | hv
      · rw [Nat.and_two_pow_sub_one_eq_mod]
        exact Nat.mod_lt _ (Nat.two_pow_pos k)
      · exact ih hv
    · simp at hv

/-- A number below the bits that are there. -/
theorem msbBits_shiftLeft_or {m v : ℕ} (hv : v < 2 ^ m) (n bits : ℕ) :
    msbBits (n + m) (bits <<< m ||| v) = msbBits n bits ++ msbBits m v := by
  rw [← Nat.shiftLeft_add_eq_or_of_lt hv, Nat.shiftLeft_eq, msbBits_add,
    ← msbBits_mod m (bits * 2 ^ m + v), Nat.mul_add_mod_self_right, msbBits_mod, mul_comm bits,
    Nat.mul_add_div (Nat.two_pow_pos m), Nat.div_eq_of_lt hv, Nat.add_zero]

/-- **The bits are the same.** -/
theorem regroup_bits {m k : ℕ} (hk : 0 < k) {keep : ℕ → ℕ → ℕ}
    (hkeep : ∀ bits n, msbBits n (keep bits n) = msbBits n bits) {vs : List ℕ}
    (hvs : ∀ v ∈ vs, v < 2 ^ m) {bits nbits : ℕ} (hn : nbits < k) :
    (regroup m k keep vs bits nbits).1.flatMap (msbBits k) ++
        msbBits (regroup m k keep vs bits nbits).2.2 (regroup m k keep vs bits nbits).2.1 =
      msbBits nbits bits ++ vs.flatMap (msbBits m) ∧
      (regroup m k keep vs bits nbits).2.2 < k := by
  induction vs generalizing bits nbits with
  | nil =>
    refine ⟨?_, hn⟩
    simp [regroup]
  | cons v vs ih =>
    have hv : v < 2 ^ m := hvs v List.mem_cons_self
    obtain ⟨htake, hlt⟩ := takeGroups_bits hk (le_refl (nbits + m)) (bits <<< m ||| v)
    obtain ⟨hrest, hend⟩ := @ih (fun u hu => hvs u (List.mem_cons_of_mem v hu))
      (keep (bits <<< m ||| v) (takeGroups k (nbits + m) (bits <<< m ||| v) (nbits + m)).2) _ hlt
    refine ⟨?_, hend⟩
    rw [regroup, List.flatMap_append, List.append_assoc, hrest, hkeep, ← List.append_assoc, htake,
      msbBits_shiftLeft_or hv, List.flatMap_cons, List.append_assoc]

theorem regroup_lt {m k : ℕ} {keep : ℕ → ℕ → ℕ} {vs : List ℕ} {bits nbits v : ℕ}
    (hv : v ∈ (regroup m k keep vs bits nbits).1) : v < 2 ^ k := by
  induction vs generalizing bits nbits with
  | nil => simp [regroup] at hv
  | cons u vs ih =>
    rcases List.mem_append.1 hv with hv | hv
    · exact takeGroups_lt hv
    · exact ih hv

/-- **The numbers are determined by the bits**, less than a number's worth of them apart. -/
theorem regroup_unique {k : ℕ} {us vs : List ℕ} (hus : ∀ u ∈ us, u < 2 ^ k)
    (hvs : ∀ v ∈ vs, v < 2 ^ k) {a b : List Bool} (ha : a.length < k) (hb : b.length < k)
    (h : us.flatMap (msbBits k) ++ a = vs.flatMap (msbBits k) ++ b) : us = vs ∧ a = b := by
  induction us generalizing vs with
  | nil =>
    rcases vs with - | ⟨v, vs⟩
    · exact ⟨rfl, h⟩
    · have hlen := congrArg List.length h
      simp at hlen
      omega
  | cons u us ih =>
    rcases vs with - | ⟨v, vs⟩
    · have hlen := congrArg List.length h
      simp at hlen
      omega
    · rw [List.flatMap_cons, List.flatMap_cons, List.append_assoc, List.append_assoc] at h
      obtain ⟨hfirst, hrest⟩ := List.append_inj h (by simp)
      obtain ⟨rfl, hab⟩ := ih (fun x hx => hus x (List.mem_cons_of_mem u hx))
        (fun x hx => hvs x (List.mem_cons_of_mem v hx)) hrest
      obtain rfl := msbBits_inj (hus u List.mem_cons_self) (hvs v List.mem_cons_self) hfirst
      exact ⟨rfl, hab⟩

theorem byteBits_eq (data : List UInt8) :
    (data.map UInt8.toNat).flatMap (msbBits 8) = byteBits data := List.flatMap_map ..

theorem toNat_lt {data : List UInt8} {v : ℕ} (hv : v ∈ data.map UInt8.toNat) : v < 2 ^ 8 := by
  obtain ⟨b, -, rfl⟩ := List.mem_map.1 hv
  exact b.toNat_lt

theorem byteBits_injective : Function.Injective byteBits := by
  intro a b hab
  rw [← byteBits_eq, ← byteBits_eq] at hab
  have hboth := regroup_unique (a := []) (b := []) (fun v hv => toNat_lt hv)
    (fun v hv => toNat_lt hv) (by decide) (by decide) (congrArg (· ++ []) hab)
  exact List.map_injective_iff.2 (fun _ _ => UInt8.toNat_inj.1) hboth.1

end Usbmidi9
