/-
  USBMIDI9 — BinHex round trips, and what its CRCs detect.

  The encoder leaves the header and the CRCs as they are, run characters included, so that
  they must contain none.  Then `hqx_roundTrip`: the decoder returns what was encoded.

  A burst of up to 16 wrong bits is always found (`hqx_burst`), a resource fork that is
  missing altogether is not (`hqx_cut`).
-/
import Usbmidi9.Tools.HqxLayers

namespace Usbmidi9.BinHex

open Outcome

/-! ## Fields -/

theorem slice_append {a b c : List UInt8} {i j : ℕ} (hi : i = a.length) (hj : j = i + b.length) :
    slice (a ++ b ++ c) i j = b := by
  subst hi hj
  rw [slice, ← List.length_append, List.take_left, List.drop_left]

/-- A stream of parts, cut at their lengths. -/
theorem slice_flatten {parts : List (List UInt8)} {k i j : ℕ} (hk : k < parts.length)
    (hi : i = (parts.take k).flatten.length) (hj : j = i + parts[k].length) :
    slice parts.flatten i j = parts[k] := by
  have hsplit : parts.flatten =
      (parts.take k).flatten ++ parts[k] ++ (parts.drop (k + 1)).flatten := by
    calc parts.flatten = (parts.take (k + 1) ++ parts.drop (k + 1)).flatten := by
          rw [List.take_append_drop]
      _ = (parts.take k).flatten ++ parts[k] ++ (parts.drop (k + 1)).flatten := by
          rw [List.flatten_append, List.take_succ_eq_append_getElem hk, List.flatten_append,
            List.flatten_singleton]
  rw [hsplit]
  exact slice_append hi hj

/-- The bytes that the encoder does not run-length encode. -/
def plainBytes (header dataFork rsrcFork : List UInt8) : List UInt8 :=
  header ++ toBytes 2 (crcHqx header 0).toNat ++ toBytes 2 (crcHqx dataFork 0).toNat ++
    toBytes 2 (crcHqx rsrcFork 0).toNat

/-- A part of the stream, with the CRC behind it. -/
def withCrc (part : List UInt8) : List UInt8 := part ++ toBytes 2 (crcHqx part 0).toNat

/-- The stream behind the run lengths. -/
def hqxStream (header dataFork rsrcFork : List UInt8) : List UInt8 :=
  withCrc header ++ withCrc dataFork ++ withCrc rsrcFork

theorem rleDecode_hqxRaw {header dataFork rsrcFork : List UInt8}
    (hplain : runChar ∉ plainBytes header dataFork rsrcFork) :
    rleDecode false 0 (hqxRaw header dataFork rsrcFork) = hqxStream header dataFork rsrcFork := by
  simp only [plainBytes, List.mem_append, not_or] at hplain
  obtain ⟨⟨⟨hheader, hcrc⟩, hdata⟩, hrsrc⟩ := hplain
  have hfirst : runChar ∉ withCrc header := by
    simp only [withCrc, List.mem_append, not_or]
    exact ⟨hheader, hcrc⟩
  obtain ⟨c₁, h₁⟩ := rleDecode_plain hfirst 0 (rleEncode dataFork ++
    (toBytes 2 (crcHqx dataFork 0).toNat ++ (rleEncode rsrcFork ++
      (toBytes 2 (crcHqx rsrcFork 0).toNat ++ []))))
  obtain ⟨c₂, h₂⟩ := rleDecode_rleEncode dataFork c₁ (toBytes 2 (crcHqx dataFork 0).toNat ++
    (rleEncode rsrcFork ++ (toBytes 2 (crcHqx rsrcFork 0).toNat ++ [])))
  obtain ⟨c₃, h₃⟩ := rleDecode_plain hdata c₂ (rleEncode rsrcFork ++
    (toBytes 2 (crcHqx rsrcFork 0).toNat ++ []))
  obtain ⟨c₄, h₄⟩ := rleDecode_rleEncode rsrcFork c₃ (toBytes 2 (crcHqx rsrcFork 0).toNat ++ [])
  obtain ⟨c₅, h₅⟩ := rleDecode_plain hrsrc c₄ []
  have hraw : hqxRaw header dataFork rsrcFork = withCrc header ++ (rleEncode dataFork ++
      (toBytes 2 (crcHqx dataFork 0).toNat ++ (rleEncode rsrcFork ++
        (toBytes 2 (crcHqx rsrcFork 0).toNat ++ [])))) := by
    simp only [hqxRaw, withCrc, List.append_assoc, List.append_nil]
  rw [hraw, h₁, h₂, h₃, h₄, h₅]
  simp only [rleDecode, hqxStream, withCrc, List.append_assoc, List.append_nil]

@[simp] theorem length_withCrc (part : List UInt8) : (withCrc part).length = part.length + 2 := by
  simp [withCrc]

theorem crcHqx_withCrc (part : List UInt8) : crcHqx (withCrc part) 0 = 0 := crcHqx_stored part 0

theorem crc_lt (crc : BitVec 16) : crc.toNat < 256 ^ 2 := crc.isLt

/-- A part behind others that leave the register at 0. -/
theorem crcMatches_withCrc {front part back : List UInt8} {pos : ℕ} (hfront : crcHqx front 0 = 0)
    (hpos : pos = front.length + part.length) :
    crcMatches (front ++ withCrc part ++ back) pos = true := by
  have hassoc : front ++ withCrc part ++ back =
      (front ++ part) ++ toBytes 2 (crcHqx part 0).toNat ++ back := by
    simp only [withCrc, List.append_assoc]
  have hlen : pos = (front ++ part).length := by rw [hpos, List.length_append]
  have htake : ((front ++ part) ++ toBytes 2 (crcHqx part 0).toNat ++ back).take pos =
      front ++ part := by
    rw [hlen, List.append_assoc, List.take_left]
  rw [crcMatches, hassoc, slice_append hlen (by simp), htake, crcHqx_append, hfront,
    fromBytes_toBytes (crc_lt _)]
  exact decide_eq_true rfl

/-- The fields of a header. -/
theorem parseLayout_header {name type creator : List UInt8} {flags dlen rlen : ℕ}
    (htype : type.length = 4) (hcreator : creator.length = 4) (hflags : flags < 2 ^ 16)
    (hdlen : dlen < 2 ^ 32) (hrlen : rlen < 2 ^ 32) (rest : List UInt8) :
    parseLayout (withCrc (hqxHeader name type creator flags dlen rlen) ++ rest) name.length 0 =
      some
        { n := name.length
          name := decodeLatin1 name
          type := decodeLatin1 type
          creator := decodeLatin1 creator
          flags, dlen, rlen
          crcOff := 20 + name.length } := by
  have hheader : (hqxHeader name type creator flags dlen rlen).length = 20 + name.length := by
    simp [hqxHeader, htype, hcreator]
    omega
  have htake : (withCrc (hqxHeader name type creator flags dlen rlen) ++ rest).take
      (20 + name.length + 0) = hqxHeader name type creator flags dlen rlen := by
    rw [Nat.add_zero, ← hheader, withCrc, List.append_assoc, List.take_left]
  have hcrc := crc_lt (crcHqx (hqxHeader name type creator flags dlen rlen) 0)
  generalize hparts : [[UInt8.ofNat name.length], name, [0], type, creator, toBytes 2 flags,
    toBytes 4 dlen, toBytes 4 rlen,
    toBytes 2 (crcHqx (hqxHeader name type creator flags dlen rlen) 0).toNat, rest] = parts
  have hraw : withCrc (hqxHeader name type creator flags dlen rlen) ++ rest = parts.flatten := by
    simp [withCrc, hqxHeader, ← hparts]
  have hname : slice parts.flatten 1 (1 + name.length) = name := by
    subst hparts
    exact slice_flatten (k := 1) (by simp) rfl rfl
  have hty : slice parts.flatten (2 + name.length) (6 + name.length) = type := by
    subst hparts
    exact slice_flatten (k := 3) (by simp) (by simp; omega) (by simp [htype]; omega)
  have hcr : slice parts.flatten (6 + name.length) (10 + name.length) = creator := by
    subst hparts
    exact slice_flatten (k := 4) (by simp) (by simp [htype]; omega) (by simp [hcreator]; omega)
  have hfl : slice parts.flatten (10 + name.length) (12 + name.length) = toBytes 2 flags := by
    subst hparts
    exact slice_flatten (k := 5) (by simp) (by simp [htype, hcreator]; omega) (by simp; omega)
  have hdl : slice parts.flatten (12 + name.length) (16 + name.length) = toBytes 4 dlen := by
    subst hparts
    exact slice_flatten (k := 6) (by simp) (by simp [htype, hcreator]; omega) (by simp; omega)
  have hrl : slice parts.flatten (16 + name.length) (20 + name.length) = toBytes 4 rlen := by
    subst hparts
    exact slice_flatten (k := 7) (by simp) (by simp [htype, hcreator]; omega) (by simp; omega)
  have hst : slice parts.flatten (20 + name.length) (20 + name.length + 2) = 
      toBytes 2 (crcHqx (hqxHeader name type creator flags dlen rlen) 0).toNat := by
    subst hparts
    exact slice_flatten (k := 8) (by simp) (by simp [htype, hcreator]; omega) (by simp)
  have hif : (crcHqx (hqxHeader name type creator flags dlen rlen) 0).toNat =
      fromBytes (slice parts.flatten (20 + name.length) (20 + name.length + 2)) := by
    rw [hst, fromBytes_toBytes hcrc]
  rw [parseLayout, htake, hraw, Nat.add_zero]
  simp only [if_pos hif, hname, hty, hcr, hfl, hdl, hrl, fromBytes_toBytes (n := 2) hflags,
    fromBytes_toBytes (n := 4) hdlen, fromBytes_toBytes (n := 4) hrlen]

section
variable {name type creator : List UInt8} {flags dlen rlen : ℕ}

/-- The header of a stream of at least two more bytes. -/
theorem parseHeader_header (hname : name.length < 256) (htype : type.length = 4)
    (hcreator : creator.length = 4) (hflags : flags < 2 ^ 16) (hdlen : dlen < 2 ^ 32)
    (hrlen : rlen < 2 ^ 32) {rest : List UInt8} (hrest : 2 ≤ rest.length) :
    parseHeader (withCrc (hqxHeader name type creator flags dlen rlen) ++ rest) = ok (some
      { n := name.length
        name := decodeLatin1 name
        type := decodeLatin1 type
        creator := decodeLatin1 creator
        flags, dlen, rlen
        crcOff := 20 + name.length }) := by
  have hhead : (withCrc (hqxHeader name type creator flags dlen rlen) ++ rest).head? =
      some (UInt8.ofNat name.length) := rfl
  have hn : (UInt8.ofNat name.length).toNat = name.length := Nat.mod_eq_of_lt hname
  have hlong : ¬(withCrc (hqxHeader name type creator flags dlen rlen) ++ rest).length <
      22 + name.length + 2 := by
    simp [hqxHeader, htype, hcreator]
    omega
  rw [parseHeader, hhead]
  simp only [hn, if_neg hlong, List.findSome?_cons,
    parseLayout_header htype hcreator hflags hdlen hrlen]

theorem length_header (htype : type.length = 4) (hcreator : creator.length = 4) :
    (withCrc (hqxHeader name type creator flags dlen rlen)).length = 20 + name.length + 2 := by
  simp [hqxHeader, htype, hcreator]
  omega

/-- **The stream**: header and forks come back. -/
theorem readStream_hqxStream {dataFork rsrcFork : List UInt8} (hname : name.length < 256)
    (htype : type.length = 4) (hcreator : creator.length = 4) (hflags : flags < 2 ^ 16)
    (hdata : dataFork.length < 2 ^ 32) (hrsrc : rsrcFork.length < 2 ^ 32) :
    readStream (hqxStream
        (hqxHeader name type creator flags dataFork.length rsrcFork.length) dataFork rsrcFork) =
      ok ⟨decodeLatin1 name, decodeLatin1 type, decodeLatin1 creator, dataFork, rsrcFork, 0⟩ := by
  have hlen := @length_header name type creator flags dataFork.length rsrcFork.length htype hcreator
  have hparse := @parseHeader_header name type creator flags _ _ hname htype hcreator hflags hdata
    hrsrc (withCrc dataFork ++ withCrc rsrcFork) (by simp; omega)
  have hfront := crcHqx_withCrc
    (hqxHeader name type creator flags dataFork.length rsrcFork.length)
  rw [← List.append_assoc] at hparse
  rw [hqxStream, readStream, hparse]
  generalize withCrc (hqxHeader name type creator flags dataFork.length rsrcFork.length) = front
    at hlen hfront ⊢
  have hboth : crcHqx (front ++ withCrc dataFork) 0 = 0 := by
    rw [crcHqx_append, hfront]
    exact crcHqx_withCrc dataFork
  have hdataOk : crcMatches (front ++ withCrc dataFork ++ withCrc rsrcFork)
      (20 + name.length + 2 + dataFork.length) = true :=
    crcMatches_withCrc hfront (by rw [hlen])
  have hrsrcOk : crcMatches (front ++ withCrc dataFork ++ withCrc rsrcFork)
      (20 + name.length + 2 + dataFork.length + 2 + rsrcFork.length) = true := by
    have hend := @crcMatches_withCrc (front ++ withCrc dataFork) rsrcFork []
      (20 + name.length + 2 + dataFork.length + 2 + rsrcFork.length) hboth
      (by simp [hlen]; omega)
    rwa [List.append_nil] at hend
  have hdataSlice : slice (front ++ withCrc dataFork ++ withCrc rsrcFork) (20 + name.length + 2)
      (20 + name.length + 2 + dataFork.length) = dataFork := by
    have hsplit : front ++ withCrc dataFork ++ withCrc rsrcFork = front ++ dataFork ++
        (toBytes 2 (crcHqx dataFork 0).toNat ++ withCrc rsrcFork) := by
      simp only [withCrc, List.append_assoc]
    rw [hsplit]
    exact slice_append hlen.symm rfl
  have hrsrcSlice : slice (front ++ withCrc dataFork ++ withCrc rsrcFork)
      (20 + name.length + 2 + dataFork.length + 2)
      (20 + name.length + 2 + dataFork.length + 2 + rsrcFork.length) = rsrcFork := by
    have hsplit : front ++ withCrc dataFork ++ withCrc rsrcFork = front ++ withCrc dataFork ++
        rsrcFork ++ toBytes 2 (crcHqx rsrcFork 0).toNat := by
      simp only [withCrc, List.append_assoc]
    rw [hsplit]
    exact slice_append (by simp [hlen]; omega) rfl
  simp only [ok_bind, readForks, hdataOk, hrsrcOk, hdataSlice, hrsrcSlice, if_true]
  simp [hlen]
  omega

/-- **BinHex round trip**: what the encoder writes is decoded to the name, the type, the creator
    and the forks, if no run character stands where the encoder leaves it as it is. -/
theorem hqx_roundTrip {dataFork rsrcFork : List UInt8} (hname : name.length < 256)
    (htype : type.length = 4) (hcreator : creator.length = 4) (hflags : flags < 2 ^ 16)
    (hdata : dataFork.length < 2 ^ 32) (hrsrc : rsrcFork.length < 2 ^ 32)
    (hplain : runChar ∉ plainBytes
      (hqxHeader name type creator flags dataFork.length rsrcFork.length) dataFork rsrcFork) :
    ∃ file, hqxEncode (decodeLatin1 name) type creator flags dataFork rsrcFork = ok file ∧
      main file =
        ok ⟨decodeLatin1 name, decodeLatin1 type, decodeLatin1 creator, dataFork, rsrcFork, 0⟩ := by
  obtain ⟨chars, hchars⟩ := exists_hqxChars fun v => @hqxVals_lt (hqxRaw
    (hqxHeader name type creator flags dataFork.length rsrcFork.length) dataFork rsrcFork) v
  obtain ⟨file, hfile⟩ := exists_hqxText hchars
  refine ⟨file, ?_, ?_⟩
  · have hbyte : ensure (name.length < 256) PyError.bytesRange = ok () := ensure_eq_ok.2 hname
    have hsizes : ensure (flags < 2 ^ 16 ∧ dataFork.length < 2 ^ 32 ∧ rsrcFork.length < 2 ^ 32)
        PyError.structError = ok () := ensure_eq_ok.2 ⟨hflags, hdata, hrsrc⟩
    rw [hqxEncode, encodeLatin1_decodeLatin1, ok_bind, hbyte, ok_bind, hsizes, ok_bind]
    exact bind_eq_ok.2 ⟨chars, hchars, hfile⟩
  · rw [main, decodeHqx_file hchars hfile, unpack_hqxVals, rleDecode_hqxRaw hplain]
    exact readStream_hqxStream hname htype hcreator hflags hdata hrsrc

theorem hqx_roundTrip_run : ∃ file,
    hqxEncode ['a'] [84, 69, 88, 84] [116, 116, 120, 116] 0 [7, 7, 7, 7, 0x90] [1] = ok file ∧
      main file = ok ⟨['a'], ['T', 'E', 'X', 'T'], ['t', 't', 'x', 't'], [7, 7, 7, 7, 0x90], [1],
        0⟩ :=
  @hqx_roundTrip [97] _ _ _ _ _ (by decide) rfl rfl (by decide) (by decide) (by decide)
    (by decide +kernel)

/-- A stream that ends behind the CRC of the data fork is accepted, whatever the header says of
    the resource fork. -/
theorem hqx_cut {dataFork : List UInt8} (hname : name.length < 256) (htype : type.length = 4)
    (hcreator : creator.length = 4) (hflags : flags < 2 ^ 16) (hdata : dataFork.length < 2 ^ 32)
    (hrlen : rlen < 2 ^ 32) :
    readStream (withCrc (hqxHeader name type creator flags dataFork.length rlen) ++
        withCrc dataFork) =
      ok ⟨decodeLatin1 name, decodeLatin1 type, decodeLatin1 creator, dataFork, [],
        -((rlen : ℤ) + 2)⟩ := by
  have hlen := @length_header name type creator flags dataFork.length rlen htype hcreator
  have hparse := @parseHeader_header name type creator flags _ _ hname htype hcreator hflags hdata
    hrlen (withCrc dataFork) (by simp)
  have hfront := crcHqx_withCrc (hqxHeader name type creator flags dataFork.length rlen)
  rw [readStream, hparse]
  generalize withCrc (hqxHeader name type creator flags dataFork.length rlen) = front
    at hlen hfront ⊢
  have hdataOk : crcMatches (front ++ withCrc dataFork) (20 + name.length + 2 + dataFork.length) =
      true := by
    have hend := @crcMatches_withCrc _ dataFork [] _ hfront
      (show 20 + name.length + 2 + dataFork.length = front.length + dataFork.length by rw [hlen])
    rwa [List.append_nil] at hend
  have hall : (front ++ withCrc dataFork).length = 20 + name.length + 2 + dataFork.length + 2 := by
    simp [hlen]
    omega
  have hpast : ∀ i j, 20 + name.length + 2 + dataFork.length + 2 ≤ i →
      slice (front ++ withCrc dataFork) i j = [] := by
    intro i j hi
    exact List.drop_eq_nil_of_le (by rw [List.length_take]; omega)
  -- the register is 0 here, and so is a CRC that is missing
  have hrsrcOk : crcMatches (front ++ withCrc dataFork)
      (20 + name.length + 2 + dataFork.length + 2 + rlen) = true := by
    rw [crcMatches, hpast _ _ (by omega), List.take_of_length_le (by omega), crcHqx_append, hfront,
      crcHqx_withCrc]
    rfl
  have hdataSlice : slice (front ++ withCrc dataFork) (20 + name.length + 2)
      (20 + name.length + 2 + dataFork.length) = dataFork := by
    rw [withCrc, ← List.append_assoc]
    exact slice_append hlen.symm rfl
  simp only [ok_bind, readForks, hdataOk, hrsrcOk, hdataSlice, hpast _ _ le_rfl, if_true, hall]
  simp
  omega

theorem hqx_cut_word :
    readStream (withCrc (hqxHeader [97] [84, 69, 88, 84] [116, 116, 120, 116] 0 2 1000) ++
        withCrc [1, 2]) =
      ok ⟨['a'], ['T', 'E', 'X', 'T'], ['t', 't', 'x', 't'], [1, 2], [], -1002⟩ :=
  @hqx_cut [97] _ _ _ 1000 [1, 2] (by decide) rfl rfl (by decide) (by decide) (by decide)

end

/-! ## Damage -/

theorem crcPoly_odd : crcPoly.getLsbD 0 = true := by decide

/-- Two bytes, as they are fed into the register. -/
theorem topBits_pair (a b : UInt8) :
    topBits 16 (byteBits [a, b]) = BitVec.ofNat 16 (fromBytes [a, b]) := by
  have hvalue : fromBytes [a, b] = b.toNat + 256 * a.toNat := by simp [fromBytes]; ring
  have hhigh : (b.toNat + 256 * a.toNat) / 2 ^ 8 = a.toNat := by have := b.toNat_lt; omega
  have hlow : (b.toNat + 256 * a.toNat) % 2 ^ 8 = b.toNat := by have := b.toNat_lt; omega
  have hbits : byteBits [a, b] = msbBits (8 + 8) (fromBytes [a, b]) := by
    rw [hvalue, msbBits_add, hhigh, ← msbBits_mod 8 (b.toNat + _), hlow]
    rfl
  rw [hbits, topBits_msbBits le_rfl]
  exact BitVec.shiftLeft_zero _

theorem fromBytes_pair_lt (a b : UInt8) : fromBytes [a, b] < 2 ^ 16 := by
  have ha := a.toNat_lt
  have hb := b.toNat_lt
  simp only [fromBytes, List.foldl_cons, List.foldl_nil]
  omega

/-- Two bytes bring the register to 0 if they are the register. -/
theorem crcHqx_pair (a b : UInt8) (crc : BitVec 16) :
    crcHqx [a, b] crc = 0 ↔ crc.toNat = fromBytes [a, b] := by
  have hshift := @crcBits_eq _ crcPoly crc (byteBits [a, b]) (by simp)
  rw [topBits_pair] at hshift
  rw [crcHqx_eq, hshift]
  constructor
  · intro hzero
    have hxor := (crcShift_injective crcPoly_odd).iterate _
      (hzero.trans (crcShift_iterate_zero crcPoly _).symm)
    rw [BitVec.xor_eq_zero_iff.1 hxor, BitVec.toNat_ofNat, Nat.mod_eq_of_lt (fromBytes_pair_lt a b)]
  · intro heq
    rw [← heq, BitVec.ofNat_toNat, BitVec.setWidth_eq, BitVec.xor_self]
    exact crcShift_iterate_zero crcPoly _

/-- A CRC that is there matches if the register is 0 behind it. -/
theorem crcMatches_iff {raw : List UInt8} {pos : ℕ} (hpos : pos + 2 ≤ raw.length) :
    crcMatches raw pos = true ↔ crcHqx (raw.take (pos + 2)) 0 = 0 := by
  have hsplit : raw.take (pos + 2) = raw.take pos ++ slice raw pos (pos + 2) := by
    have hmin : min pos (pos + 2) = pos := by omega
    have htake := List.take_append_drop pos (raw.take (pos + 2))
    rw [List.take_take, hmin] at htake
    exact htake.symm
  have hlen : (slice raw pos (pos + 2)).length = 2 := by
    rw [slice, List.length_drop, List.length_take]
    omega
  obtain ⟨a, b, hpair⟩ := List.length_eq_two.1 hlen
  rw [hsplit, crcHqx_append, hpair, crcHqx_pair, crcMatches, hpair, decide_eq_true_iff]

theorem slice_congr {raw raw' : List UInt8} {i j m : ℕ} (hj : j ≤ m)
    (h : raw.take m = raw'.take m) : slice raw i j = slice raw' i j := by
  have htake : raw.take j = raw'.take j := by
    calc raw.take j = (raw.take m).take j := by rw [List.take_take, min_eq_left hj]
      _ = raw'.take j := by rw [h, List.take_take, min_eq_left hj]
  rw [slice, slice, htake]

theorem parseLayout_congr {raw raw' : List UInt8} {n extra : ℕ}
    (h : raw.take (22 + n + extra) = raw'.take (22 + n + extra)) :
    parseLayout raw n extra = parseLayout raw' n extra := by
  have hslice : ∀ i j, j ≤ 22 + n + extra → slice raw i j = slice raw' i j :=
    fun i j hj => slice_congr hj h
  have htake : raw.take (20 + n + extra) = raw'.take (20 + n + extra) := by
    have hzero := hslice 0 (20 + n + extra) (by omega)
    simpa [slice] using hzero
  simp only [parseLayout, htake, hslice (20 + n + extra) (20 + n + extra + 2) (by omega),
    hslice 1 (1 + n) (by omega), hslice (2 + n) (6 + n) (by omega),
    hslice (6 + n) (10 + n) (by omega), hslice (10 + n) (12 + n) (by omega),
    hslice (12 + n) (16 + n) (by omega), hslice (16 + n) (20 + n) (by omega)]

theorem crcOff_of_parseLayout {raw : List UInt8} {n extra : ℕ} {h : Header}
    (hparse : parseLayout raw n extra = some h) : h.crcOff = 20 + n + extra := by
  simp only [parseLayout] at hparse
  split_ifs at hparse
  obtain rfl := Option.some.inj hparse
  rfl

/-- The header depends on what stands up to its CRC, and on there being more. -/
theorem parseHeader_congr {raw raw' : List UInt8} {h : Header}
    (hparse : parseHeader raw = ok (some h)) (hlen : raw'.length = raw.length)
    (htake : raw.take (h.crcOff + 2) = raw'.take (h.crcOff + 2)) :
    parseHeader raw' = ok (some h) := by
  have hle : ∀ m ≤ h.crcOff + 2, raw.take m = raw'.take m := by
    intro m hm
    simpa [slice] using slice_congr (i := 0) hm htake
  rcases hhead : raw.head? with - | b
  · simp [parseHeader, hhead] at hparse
  · have hhead' : raw'.head? = some b := by
      have hone := congrArg List.head? (hle 1 (by omega))
      simpa [List.head?_take, hhead] using hone.symm
    rw [parseHeader, hhead] at hparse
    simp only at hparse
    split_ifs at hparse with hshort
    · simp at hparse
    · have hfind := ok.inj hparse
      have hcongr : ∀ extra, 22 + b.toNat + extra ≤ h.crcOff + 2 →
          parseLayout raw' b.toNat extra = parseLayout raw b.toNat extra :=
        fun extra hextra => (parseLayout_congr (hle _ hextra)).symm
      have hshort' : ¬raw'.length < 22 + b.toNat + 2 := hlen.symm ▸ hshort
      simp only [parseHeader, hhead', if_neg hshort', ok.injEq]
      rcases hzero : parseLayout raw b.toNat 0 with - | found
      · have hone : parseLayout raw b.toNat 1 = some h := by
          rcases hone : parseLayout raw b.toNat 1 with - | found
          · simp [hzero, hone] at hfind
          · simpa [hzero, hone] using hfind
        have hoff := crcOff_of_parseLayout hone
        simp [hcongr 0 (by omega), hcongr 1 (by omega), hzero, hone]
      · obtain rfl : found = h := by simpa [hzero] using hfind
        have hoff := crcOff_of_parseLayout hzero
        simp [hcongr 0 (by omega), hzero]

/-- **Bursts are detected**: of a stream that was accepted, up to 16 consecutive bits are changed,
    anywhere from behind the header's CRC to the end of the last one. -/
theorem hqx_burst {raw raw' : List UInt8} {h : Header} {d : Decoded}
    (hparse : parseHeader raw = ok (some h)) (hok : readStream raw = ok d) (htrail : 0 ≤ d.trailing)
    {front k l back : List Bool} (hraw : byteBits raw = front ++ k ++ back)
    (hraw' : byteBits raw' = front ++ l ++ back) (hlen : k.length = l.length)
    (hburst : k.length ≤ 16) (hne : k ≠ l) (hbehind : 8 * (h.crcOff + 2) ≤ front.length)
    (hbefore : front.length + k.length ≤ 8 * (h.crcOff + 6 + h.dlen + h.rlen)) :
    readStream raw' = err (.exit "data CRC mismatch") ∨
      readStream raw' = err (.exit "rsrc CRC mismatch") := by
  have hsame : raw'.length = raw.length := by
    have hbits := congrArg List.length hraw
    have hbits' := congrArg List.length hraw'
    simp only [length_byteBits, List.length_append] at hbits hbits'
    omega
  have htake : raw.take (h.crcOff + 2) = raw'.take (h.crcOff + 2) := by
    refine byteBits_injective ?_
    rw [byteBits_take, byteBits_take, hraw, hraw', List.append_assoc, List.append_assoc,
      List.take_append_of_le_length hbehind, List.take_append_of_le_length hbehind]
  have hparse' := parseHeader_congr hparse hsame htake
  simp only [readStream, hparse, ok_bind] at hok
  simp only [readStream, hparse', ok_bind]
  unfold readForks at hok ⊢
  dsimp only at hok ⊢
  split_ifs at hok with hdata hrsrc
  have hd := ok.inj hok
  rw [← hd] at htrail
  have hend : h.crcOff + 2 + h.dlen + 2 + h.rlen + 2 ≤ raw.length := by
    dsimp only at htrail
    omega
  split_ifs with hdata' hrsrc'
  · exfalso
    -- the last check covers the whole stream
    rw [crcMatches_iff hend, crcHqx_eq, byteBits_take, hraw] at hrsrc
    rw [crcMatches_iff (by omega), crcHqx_eq, byteBits_take, hraw'] at hrsrc'
    have hcut : ∀ {m : List Bool}, m.length = k.length →
        (front ++ m ++ back).take (8 * (h.crcOff + 2 + h.dlen + 2 + h.rlen + 2)) =
          front ++ m ++ back.take
            (8 * (h.crcOff + 2 + h.dlen + 2 + h.rlen + 2) - (front.length + k.length)) := by
      intro m hm
      rw [List.take_append, List.length_append, hm, List.take_of_length_le]
      rw [List.length_append]
      omega
    rw [hcut rfl] at hrsrc
    rw [hcut hlen.symm] at hrsrc'
    exact hne (crcBits_burst crcPoly_odd 0 front _ hlen hburst (hrsrc.trans hrsrc'.symm))
  · exact .inr rfl
  · exact .inl rfl

theorem hqx_burst_bit :
    readStream (withCrc (hqxHeader [97] [84, 69, 88, 84] [116, 116, 120, 116] 0 1 0) ++ [3] ++
        (toBytes 2 (crcHqx [1] 0).toNat ++ withCrc [])) = err (.exit "data CRC mismatch") ∨
      readStream (withCrc (hqxHeader [97] [84, 69, 88, 84] [116, 116, 120, 116] 0 1 0) ++ [3] ++
        (toBytes 2 (crcHqx [1] 0).toNat ++ withCrc [])) = err (.exit "rsrc CRC mismatch") := by
  have hparse := @parseHeader_header [97] [84, 69, 88, 84] [116, 116, 120, 116] 0 1 0
    (by decide) rfl rfl (by decide) (by decide) (by decide)
    ([1] ++ (toBytes 2 (crcHqx [1] 0).toNat ++ withCrc [])) (by simp)
  have hok := @readStream_hqxStream [97] [84, 69, 88, 84] [116, 116, 120, 116] 0 [1] []
    (by decide) rfl rfl (by decide) (by decide) (by decide)
  have hlen := @length_header [97] [84, 69, 88, 84] [116, 116, 120, 116] 0 1 0 rfl rfl
  have hsplit : hqxStream (hqxHeader [97] [84, 69, 88, 84] [116, 116, 120, 116] 0 1 0) [1] [] =
      withCrc (hqxHeader [97] [84, 69, 88, 84] [116, 116, 120, 116] 0 1 0) ++
        ([1] ++ (toBytes 2 (crcHqx [1] 0).toNat ++ withCrc [])) := by
    rw [hqxStream, List.append_assoc]
    rfl
  rw [show [(1 : UInt8)].length = 1 from rfl, show ([] : List UInt8).length = 0 from rfl,
    hsplit] at hok
  rw [List.append_assoc]
  have hfront : (byteBits (withCrc (hqxHeader [97] [84, 69, 88, 84] [116, 116, 120, 116] 0 1
      0))).length = 8 * 23 := by rw [length_byteBits, hlen]; rfl
  have hbits : ∀ front back : List UInt8, ∀ b : UInt8,
      byteBits (front ++ ([b] ++ back)) = byteBits front ++ byteBits [b] ++ byteBits back := by
    intro front back b
    rw [byteBits_append, byteBits_append, List.append_assoc]
  exact hqx_burst hparse hok le_rfl (hbits _ _ 1) (hbits _ _ 3) rfl (by decide) (by decide)
    hfront.ge (by rw [hfront]; decide)

end Usbmidi9.BinHex
