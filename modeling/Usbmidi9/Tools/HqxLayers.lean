/-
  USBMIDI9 — the layers of BinHex.

  Each is undone by itself: the runs (`rleDecode_rleEncode`), the integers
  (`fromBytes_toBytes`), the lines and the alphabet (`decodeHqx_file`) and the values of six
  bits (`unpack_hqxVals`).  A CRC that is fed into its own register leaves 0
  (`crcHqx_stored`).
-/
import Usbmidi9.Tools.BinHex

namespace Usbmidi9.BinHex

open Outcome

/-! ## Runs -/

theorem runLength_le (x : UInt8) (n : ℕ) (data : List UInt8) : runLength x n data ≤ n := by
  induction n generalizing data with
  | zero => simp [runLength]
  | succ n ih =>
    rcases data with - | ⟨y, data⟩
    · simp [runLength]
    · rw [runLength]
      split_ifs
      · exact Nat.succ_le_succ (ih data)
      · exact Nat.zero_le _

/-- What a run takes from the data. -/
theorem replicate_runLength (x : UInt8) (n : ℕ) (data : List UInt8) :
    List.replicate (runLength x n data) x ++ data.drop (runLength x n data) = data := by
  induction n generalizing data with
  | zero => simp [runLength]
  | succ n ih =>
    rcases data with - | ⟨y, data⟩
    · simp [runLength]
    · rw [runLength]
      split_ifs with hy
      · subst hy
        rw [List.replicate_succ, List.drop_succ_cons, List.cons_append, ih]
      · simp

theorem rleDecode_literals (lastc : UInt8) (run : ℕ) (rest : List UInt8) :
    rleDecode false lastc ((List.replicate (run + 1) [0x90, 0x00]).flatten ++ rest) =
      List.replicate (run + 1) runChar ++ rleDecode false runChar rest := by
  have hone : ∀ c t, rleDecode false c ([0x90, 0x00] ++ t) = runChar :: rleDecode false runChar t :=
    fun c t => by simp [rleDecode, runChar]
  induction run generalizing lastc with
  | zero => simpa using hone lastc rest
  | succ run ih =>
    rw [List.replicate_succ, List.flatten_cons, List.append_assoc, hone, ih]
    rfl

theorem rleDecode_replicate {x : UInt8} (hx : x ≠ runChar) (lastc : UInt8) (run : ℕ)
    (rest : List UInt8) :
    rleDecode false lastc (List.replicate (run + 1) x ++ rest) =
      List.replicate (run + 1) x ++ rleDecode false x rest := by
  induction run generalizing lastc with
  | zero => simp [rleDecode, hx]
  | succ run ih =>
    rw [List.replicate_succ, List.cons_append, rleDecode, if_neg hx, ih]
    rfl

/-- One run: the bytes come back, and the last byte is its byte. -/
theorem rleDecode_encodeRun (x lastc : UInt8) {run : ℕ} (hrun : run < 255) (rest : List UInt8) :
    rleDecode false lastc (encodeRun x (run + 1) ++ rest) =
      List.replicate (run + 1) x ++ rleDecode false x rest := by
  unfold encodeRun
  split_ifs with hx hlong
  · subst hx
    exact rleDecode_literals lastc run rest
  · have hcount : (UInt8.ofNat (run + 1)).toNat = run + 1 := Nat.mod_eq_of_lt (by omega)
    have hzero : UInt8.ofNat (run + 1) ≠ 0 := by
      intro h
      rw [h] at hcount
      simp at hcount
    have hne : x ≠ runChar := hx
    have hflag : (0x90 : UInt8) = runChar := rfl
    rw [List.cons_append, List.cons_append, List.cons_append, List.nil_append, rleDecode,
      if_neg hne, rleDecode, if_pos hflag, rleDecode, if_neg hzero, hcount]
    rfl
  · exact rleDecode_replicate hx lastc run rest

/-- **Run lengths, there and back.** -/
theorem rleDecode_rleEncodeLoop {fuel : ℕ} {data : List UInt8} (hfuel : data.length ≤ fuel)
    (lastc : UInt8) (rest : List UInt8) :
    ∃ c, rleDecode false lastc (rleEncodeLoop fuel data ++ rest) =
      data ++ rleDecode false c rest := by
  induction fuel generalizing data lastc with
  | zero =>
    obtain rfl := List.eq_nil_of_length_eq_zero (Nat.le_zero.1 hfuel)
    exact ⟨lastc, rfl⟩
  | succ fuel ih =>
    rcases data with - | ⟨x, data⟩
    · exact ⟨lastc, rfl⟩
    · have hle := runLength_le x 254 data
      have hsplit := replicate_runLength x 254 data
      obtain ⟨c, hc⟩ := @ih (data.drop (runLength x 254 data))
        (by simp at hfuel ⊢; omega) x
      refine ⟨c, ?_⟩
      rw [rleEncodeLoop, List.append_assoc, rleDecode_encodeRun x lastc (by omega), hc,
        ← List.append_assoc, List.replicate_succ, List.cons_append, hsplit]

theorem rleDecode_rleEncode (data : List UInt8) (lastc : UInt8) (rest : List UInt8) :
    ∃ c, rleDecode false lastc (rleEncode data ++ rest) = data ++ rleDecode false c rest :=
  rleDecode_rleEncodeLoop le_rfl lastc rest

/-- Bytes that are not encoded. -/
theorem rleDecode_plain {plain : List UInt8} (hplain : runChar ∉ plain) (lastc : UInt8)
    (rest : List UInt8) :
    ∃ c, rleDecode false lastc (plain ++ rest) = plain ++ rleDecode false c rest := by
  induction plain generalizing lastc with
  | nil => exact ⟨lastc, rfl⟩
  | cons b plain ih =>
    obtain ⟨hb, hrest⟩ := not_or.1 (mt List.mem_cons.2 hplain)
    obtain ⟨c, hc⟩ := ih hrest b
    refine ⟨c, ?_⟩
    rw [List.cons_append, rleDecode, if_neg (Ne.symm hb), hc, List.cons_append]

/-! ## Bytes -/

@[simp] theorem length_toBytes (n value : ℕ) : (toBytes n value).length = n := by
  induction n with
  | zero => rfl
  | succ n ih => simp [toBytes, ih]

theorem byteBits_toBytes (n value : ℕ) : byteBits (toBytes n value) = msbBits (8 * n) value := by
  induction n with
  | zero => rfl
  | succ n ih =>
    have hpow : (256 : ℕ) ^ n = 2 ^ (8 * n) := by rw [pow_mul]; norm_num
    have hhead : msbBits 8 (UInt8.ofNat (value / 256 ^ n)).toNat = msbBits 8 (value / 256 ^ n) :=
      msbBits_mod 8 _
    calc byteBits (toBytes (n + 1) value)
        = msbBits 8 (UInt8.ofNat (value / 256 ^ n)).toNat ++ byteBits (toBytes n value) := rfl
      _ = msbBits (8 + 8 * n) value := by rw [hhead, ih, hpow, msbBits_add]
      _ = msbBits (8 * (n + 1)) value := by rw [Nat.mul_succ, Nat.add_comm]

theorem foldl_toBytes (n value acc : ℕ) :
    (toBytes n value).foldl (fun n b => 256 * n + b.toNat) acc =
      256 ^ n * acc + value % 256 ^ n := by
  induction n generalizing acc with
  | zero => simp [toBytes, Nat.mod_one]
  | succ n ih =>
    have hhead : (UInt8.ofNat (value / 256 ^ n)).toNat = value / 256 ^ n % 256 := rfl
    rw [toBytes, List.foldl_cons, ih, hhead, pow_succ, Nat.mod_mul]
    ring

/-- Big-endian integers, there and back. -/
theorem fromBytes_toBytes {n value : ℕ} (h : value < 256 ^ n) :
    fromBytes (toBytes n value) = value := by
  rw [fromBytes, foldl_toBytes, Nat.mod_eq_of_lt h]
  simp

/-! ## CRCs -/

theorem crcHqx_eq (data : List UInt8) (crc : BitVec 16) :
    crcHqx data crc = crcBits crcPoly crc (byteBits data) := by
  induction data generalizing crc with
  | nil => rfl
  | cons b data ih =>
    have hbyte := @crcBits_eq _ crcPoly crc (msbBits 8 b.toNat) (by simp)
    rw [topBits_msbBits (by decide), length_msbBits] at hbyte
    rw [byteBits_cons, crcBits_append, hbyte, ← ih]
    rfl

theorem crcHqx_append (a b : List UInt8) (crc : BitVec 16) :
    crcHqx (a ++ b) crc = crcHqx b (crcHqx a crc) := List.foldl_append

/-- The register is 0 after it has been stored. -/
theorem crcHqx_stored (data : List UInt8) (crc : BitVec 16) :
    crcHqx (data ++ toBytes 2 (crcHqx data crc).toNat) crc = 0 := by
  rw [crcHqx_append, crcHqx_eq (toBytes 2 _), byteBits_toBytes]
  exact crcBits_self crcPoly _

/-! ## Text -/

/-- Characters below 256 are bytes. -/
theorem decodeLatin1_encodeLatin1 {text : List Char} {data : List UInt8}
    (h : encodeLatin1 text = ok data) : decodeLatin1 data = text := by
  unfold encodeLatin1 at h
  split_ifs at h with hsmall
  obtain rfl := ok.inj h
  rw [decodeLatin1, List.map_map]
  refine (List.map_congr_left fun ch hch => ?_).trans text.map_id
  have hbyte : (UInt8.ofNat ch.toNat).toNat = ch.toNat := Nat.mod_eq_of_lt (hsmall ch hch)
  rw [Function.comp_apply, hbyte, Char.ofNat_toNat]
  rfl

theorem length_alpha : alpha.length = 64 := by decide

theorem alpha_all : ∀ v : Fin 64, alpha.idxOf? (alpha.getD v ' ') = some v.1 ∧
    alpha.getD v ' ' ≠ ':' ∧ alpha.getD v ' ' ∉ blanks ∧ (alpha.getD v ' ').toNat < 256 := by
  decide

/-- The alphabet, as the decoder sees it. -/
theorem alpha_spec {v : ℕ} {ch : Char} (h : alpha[v]? = some ch) :
    alpha.idxOf? ch = some v ∧ ch ≠ ':' ∧ ch ∉ blanks ∧ ch.toNat < 256 := by
  have hv : v < 64 := by
    rw [← length_alpha]
    exact (List.getElem?_eq_some_iff.1 h).1
  have hch : alpha.getD v ' ' = ch := by rw [List.getD_eq_getElem?_getD, h]; rfl
  have hspec := alpha_all ⟨v, hv⟩
  rwa [hch] at hspec

theorem hqxChars_spec {vals : List ℕ} {chars : List Char} (h : hqxChars vals = ok chars) :
    List.Forall₂ (fun v ch => alpha[v]? = some ch) vals chars := by
  induction vals generalizing chars with
  | nil =>
    obtain rfl := ok.inj h
    exact .nil
  | cons v vals ih =>
    simp only [hqxChars, bind_eq_ok, okOr_eq_ok] at h
    obtain ⟨ch, hch, rest, hrest, h⟩ := h
    obtain rfl := ok.inj h
    exact .cons hch (ih hrest)

theorem exists_hqxChars {vals : List ℕ} (hvals : ∀ v ∈ vals, v < 64) :
    ∃ chars, hqxChars vals = ok chars := by
  induction vals with
  | nil => exact ⟨[], rfl⟩
  | cons v vals ih =>
    obtain ⟨chars, hchars⟩ := ih fun u hu => hvals u (List.mem_cons_of_mem v hu)
    have hv : v < alpha.length := length_alpha ▸ hvals v List.mem_cons_self
    refine ⟨alpha[v] :: chars, ?_⟩
    rw [hqxChars, List.getElem?_eq_getElem hv, hchars]
    rfl

/-- Blanks between characters of the alphabet are skipped, up to the second colon. -/
theorem readChars_text {vals : List ℕ} {text : List Char} (rest : List Char)
    (h : List.Forall₂ (fun v ch => alpha[v]? = some ch) vals (text.filter (· ∉ blanks))) :
    readChars true (text ++ ':' :: rest) = ok vals := by
  induction text generalizing vals with
  | nil =>
    obtain rfl := List.forall₂_nil_right_iff.1 h
    rfl
  | cons ch text ih =>
    by_cases hblank : ch ∈ blanks
    · have hcolon : ch ≠ ':' := by rintro rfl; exact absurd hblank (by decide)
      rw [List.filter_cons_of_neg (by simpa using hblank)] at h
      rw [List.cons_append, readChars, if_neg hcolon, if_pos hblank, ih h]
    · rw [List.filter_cons_of_pos (by simpa using hblank)] at h
      obtain ⟨v, vals, hv, hrest, rfl⟩ := List.forall₂_cons_right_iff.1 h
      obtain ⟨hidx, hcolon, -, -⟩ := alpha_spec hv
      rw [List.cons_append, readChars, if_neg hcolon, if_neg hblank, hidx]
      simp only [ih hrest, ok_bind]

theorem filter_intercalate {α : Type} (p : α → Bool) {sep : List α} (hsep : sep.filter p = [])
    (parts : List (List α)) : (sep.intercalate parts).filter p = parts.flatten.filter p := by
  induction parts with
  | nil => rfl
  | cons part parts ih =>
    rcases parts with - | ⟨next, parts⟩
    · simp [List.intercalate]
    · rw [List.intercalate_cons_cons, List.filter_append, List.filter_append, hsep, ih,
        List.append_nil, ← List.filter_append, ← List.flatten_cons]

theorem flatten_range_take {α : Type} (l : List α) (k n : ℕ) :
    ((List.range n).map fun i => (l.drop (k * i)).take k).flatten = l.take (k * n) := by
  induction n with
  | zero => simp
  | succ n ih =>
    rw [List.range_succ, List.map_append, List.flatten_append, ih, Nat.mul_succ, List.take_add]
    simp

theorem flatten_hqxLines (chars : List Char) : (hqxLines chars).flatten = chars := by
  rw [hqxLines, flatten_range_take, List.take_of_length_le (by omega)]

/-! ## The stream of bits -/

/-- The last value is padded with zeros. -/
theorem msbBits_pad {n : ℕ} (hn : n < 6) (bits : ℕ) :
    msbBits 6 ((bits <<< (6 - n)) &&& 0x3F) =
      msbBits n bits ++ msbBits (6 - n) (bits <<< (6 - n)) := by
  have hsum : 6 = n + (6 - n) := by omega
  have hmask : (bits <<< (6 - n)) &&& 0x3F = (bits <<< (6 - n)) % 2 ^ 6 :=
    Nat.and_two_pow_sub_one_eq_mod _ 6
  have hdiv : (bits <<< (6 - n)) / 2 ^ (6 - n) = bits := by
    rw [Nat.shiftLeft_eq, Nat.mul_div_cancel _ (Nat.two_pow_pos _)]
  calc msbBits 6 ((bits <<< (6 - n)) &&& 0x3F) = msbBits 6 (bits <<< (6 - n)) := by
        rw [hmask, msbBits_mod]
    _ = msbBits (n + (6 - n)) (bits <<< (6 - n)) := by rw [← hsum]
    _ = msbBits n bits ++ msbBits (6 - n) (bits <<< (6 - n)) := by rw [msbBits_add, hdiv]

/-- What the encoder packs: the bits of the stream, and less than a value of padding. -/
theorem hqxVals_bits (raw : List UInt8) :
    ∃ pad : List Bool, pad.length < 6 ∧
      (hqxVals raw).flatMap (msbBits 6) = byteBits raw ++ pad := by
  obtain ⟨hbits, hlt⟩ := @regroup_bits 8 6 (by decide) (fun bits _ => bits)
    (fun _ _ => rfl) _ (fun _ => @toNat_lt raw _) 0 0 (by decide)
  rw [byteBits_eq] at hbits
  simp only [hqxVals]
  generalize regroup 8 6 (fun bits _ => bits) (raw.map UInt8.toNat) 0 0 = out at hbits hlt ⊢
  obtain ⟨vals, bits, n⟩ := out
  split_ifs with hn
  · have hpos : 0 < n := Nat.pos_of_ne_zero hn
    refine ⟨msbBits (6 - n) (bits <<< (6 - n)), by simpa using hpos, ?_⟩
    rw [List.flatMap_append, List.flatMap_cons, List.flatMap_nil, List.append_nil,
      msbBits_pad hlt, ← List.append_assoc, hbits]
    rfl
  · obtain rfl : n = 0 := not_not.1 hn
    refine ⟨[], by decide, ?_⟩
    simpa [msbBits] using hbits

theorem hqxVals_lt {raw : List UInt8} {v : ℕ} (hv : v ∈ hqxVals raw) : v < 2 ^ 6 := by
  simp only [hqxVals] at hv
  split_ifs at hv
  · rcases List.mem_append.1 hv with hv | hv
    · exact regroup_lt hv
    · obtain rfl := List.mem_singleton.1 hv
      exact Nat.lt_of_le_of_lt Nat.and_le_right (by decide)
  · exact regroup_lt hv

theorem msbBits_keepLow (bits n : ℕ) : msbBits n (keepLow bits n) = msbBits n bits := by
  have hmask : keepLow bits n = bits % 2 ^ n := by
    rw [keepLow, Nat.one_shiftLeft, Nat.and_two_pow_sub_one_eq_mod]
  rw [hmask, msbBits_mod]

/-- **Bytes into values of six bits, and back.** -/
theorem unpack_hqxVals (raw : List UInt8) :
    (regroup 6 8 keepLow (hqxVals raw) 0 0).1.map UInt8.ofNat = raw := by
  obtain ⟨pad, hpad, hvals⟩ := hqxVals_bits raw
  obtain ⟨hbits, hlt⟩ := @regroup_bits 6 8 (by decide) _ msbBits_keepLow
    _ (fun _ => @hqxVals_lt raw _) 0 0 (by decide)
  rw [hvals, ← byteBits_eq] at hbits
  obtain ⟨hpacked, -⟩ := regroup_unique (fun v hv => regroup_lt hv) (fun v hv => toNat_lt hv)
    (by simpa using hlt) (hpad.trans (by decide)) hbits
  rw [hpacked, List.map_map]
  exact (List.map_congr_left fun b _ => UInt8.ofNat_toNat).trans raw.map_id

theorem encodeLatin1_decodeLatin1 (data : List UInt8) :
    encodeLatin1 (decodeLatin1 data) = ok data := by
  have hch : ∀ b : UInt8, (Char.ofNat b.toNat).toNat = b.toNat := by
    intro b
    have hvalid : b.toNat.isValidChar := .inl (b.toNat_lt.trans (by decide))
    rw [Char.ofNat, dif_pos hvalid]
    rfl
  have hsmall : ∀ ch ∈ decodeLatin1 data, ch.toNat < 256 := by
    intro ch hmem
    obtain ⟨b, -, rfl⟩ := List.mem_map.1 hmem
    exact (hch b).trans_lt b.toNat_lt
  rw [encodeLatin1, if_pos hsmall, decodeLatin1, List.map_map]
  refine congrArg ok ((List.map_congr_left fun b _ => ?_).trans data.map_id)
  rw [Function.comp_apply, hch]
  exact UInt8.ofNat_toNat

theorem mem_of_hqxChars {vals : List ℕ} {chars : List Char}
    (h : List.Forall₂ (fun v ch => alpha[v]? = some ch) vals chars) :
    ∀ ch ∈ chars, ch ∉ blanks ∧ ch.toNat < 256 := by
  induction h with
  | nil => exact fun ch hch => absurd hch List.not_mem_nil
  | cons hv _ ih =>
    intro ch hch
    rcases List.mem_cons.1 hch with rfl | hch
    · exact (alpha_spec hv).2.2
    · exact ih ch hch

/-- The text in front of the first colon. -/
theorem readChars_intro {intro : List Char} (hintro : ':' ∉ intro) (text : List Char) :
    readChars false (intro ++ ':' :: text) = readChars true text := by
  induction intro with
  | nil => rfl
  | cons ch intro ih =>
    obtain ⟨hch, hrest⟩ := not_or.1 (mt List.mem_cons.2 hintro)
    rw [List.cons_append, readChars, beq_false_of_ne (Ne.symm hch), ih hrest]

theorem exists_hqxText {vals : List ℕ} {chars : List Char} (hchars : hqxChars vals = ok chars) :
    ∃ file, encodeLatin1 (hqxText chars) = ok file := by
  have hsmall : ∀ ch ∈ hqxText chars, ch.toNat < 256 := by
    have hlines : (List.intercalate "\r\n".toList (hqxLines chars)).filter (256 ≤ ·.toNat) = [] := by
      rw [filter_intercalate _ (by decide), flatten_hqxLines, List.filter_eq_nil_iff]
      intro ch hch
      have hlt := (mem_of_hqxChars (hqxChars_spec hchars) ch hch).2
      simpa using hlt
    have hfront : ∀ ch ∈ "(This file must be converted with BinHex 4.0)\r\n:".toList,
      ch.toNat < 256 := by simp
    have hback : ∀ ch ∈ ":\r\n".toList, ch.toNat < 256 := by simp
    intro ch hch
    rcases List.mem_append.1 hch with hch | hch
    · rcases List.mem_append.1 hch with hch | hch
      · exact hfront ch hch
      · simpa using List.filter_eq_nil_iff.1 hlines ch hch
    · exact hback ch hch
  exact ⟨_, if_pos hsmall⟩

/-- The two colons. -/
theorem hqxText_eq (chars : List Char) :
    hqxText chars = "(This file must be converted with BinHex 4.0)\r\n".toList ++ ':' ::
      (List.intercalate "\r\n".toList (hqxLines chars) ++ ':' :: "\r\n".toList) := by
  have hcolon : "(This file must be converted with BinHex 4.0)\r\n:".toList =
      "(This file must be converted with BinHex 4.0)\r\n".toList ++ [':'] := by decide
  have hback : ":\r\n".toList = ':' :: "\r\n".toList := by decide
  unfold hqxText
  -- keeps the literals from being compared
  generalize "\r\n".toList = newline at hback ⊢
  generalize "(This file must be converted with BinHex 4.0)\r\n".toList = front at hcolon ⊢
  rw [hcolon, hback]
  simp only [List.append_assoc, List.cons_append, List.nil_append]

/-- **The file**: what was packed comes out. -/
theorem decodeHqx_file {vals : List ℕ} {chars : List Char} {file : List UInt8}
    (hchars : hqxChars vals = ok chars) (hfile : encodeLatin1 (hqxText chars) = ok file) :
    decodeHqx file = ok (rleDecode false 0 ((regroup 6 8 keepLow vals 0 0).1.map UInt8.ofNat)) := by
  have hspec := hqxChars_spec hchars
  have htext : readChars true
      (List.intercalate "\r\n".toList (hqxLines chars) ++ ':' :: "\r\n".toList) = ok vals := by
    refine readChars_text _ ?_
    rw [filter_intercalate _ (by decide), flatten_hqxLines, List.filter_eq_self.2]
    · exact hspec
    · exact fun ch hch => by simpa using (mem_of_hqxChars hspec ch hch).1
  have hintro : ':' ∉ "(This file must be converted with BinHex 4.0)\r\n".toList := by decide
  have hread : readChars false (decodeLatin1 file) = ok vals := by
    rw [decodeLatin1_encodeLatin1 hfile, hqxText_eq]
    exact (readChars_intro hintro _).trans htext
  unfold decodeHqx
  simp only [hread, ok_bind]

end Usbmidi9.BinHex
