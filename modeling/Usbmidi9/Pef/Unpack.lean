/-
  USBMIDI9 — the packed-data decompressor (`pefcheck/src/pef.rs`).

  `unpackPackedPartial` is the loop of `unpack_packed_partial`, with a function
  for each opcode.  Its result `(content, Ok(()))` is `ok content` and
  `(content, Err(msg))` is `err (content, msg)`.

  It does not panic (`unpackPacked_safe`): positions stay inside the stream, the
  output inside `out_len`, and a varint of five bytes inside a word.
-/
import Usbmidi9.Pef.Bytes

namespace Usbmidi9

open Outcome

/-! ## The decompressor -/

/-- `grow`. -/
def grow (out : List UInt8) (outLen add : ℕ) (op : String) : Outcome String Unit :=
  ensure (saturatingAdd out.length add ≤ outLen)
    s!"packed-data overrun: {op} would exceed unpackedLength {outLen}"

/-- The loop of `varint`, for at most `fuel` bytes. -/
def varintLoop (data : List UInt8) : ℕ → ℕ → ℕ → ℕ → Outcome String (ℕ × ℕ)
  | 0, _, _, _ => .panic
  | fuel + 1, pos, v, count =>
    if data.length ≤ pos then .err "packed stream truncated in varint"
    else do
      let b ← get data pos
      let pos ← word (pos + 1)
      let v ← okOr "varint overflow"
        ((checkedMul v 128).bind fun x => checkedAdd x (b &&& 0x7F).toNat)
      if b &&& 0x80 = 0 then .ok (v, pos)
      else if 4 < count + 1 then .err "varint too long"
      else varintLoop data fuel pos v (count + 1)

/-- `varint`: the value and the position behind it. -/
def varint (data : List UInt8) (pos : ℕ) : Outcome String (ℕ × ℕ) := varintLoop data 5 pos 0 0

/-- `take`: `n` bytes and the position behind them. -/
def take (data : List UInt8) (pos n : ℕ) (what : String) : Outcome String (List UInt8 × ℕ) :=
  if ∀ e ∈ checkedAdd pos n, data.length < e then
    .err s!"packed stream truncated in {what}: need {n} bytes at {pos} (stream len {data.length})"
  else do
    let e ← word (pos + n)
    let block ← slice data pos e
    .ok (block, e)

/-- The head of an instruction: the opcode, the count and the position behind. -/
def unpackHead (data : List UInt8) (pos : ℕ) : Outcome String (UInt8 × ℕ × ℕ) := do
  let b ← get data pos
  let pos ← word (pos + 1)
  let (value, pos) ← (if b &&& 0x1F = 0 then varint data pos else .ok ((b &&& 0x1F).toNat, pos))
  .ok (b >>> 5, value, pos)

/-- A decode that may stop with a prefix. -/
abbrev Partial := Outcome (List UInt8 × String)

section
variable (data : List UInt8) (outLen : ℕ) (out : List UInt8) (pos value : ℕ)

/-- Opcode 0. -/
def unpackZero : Partial (List UInt8 × ℕ) := do
  (grow out outLen value "Zero").mapErr (out, ·)
  let n ← word (out.length + value)
  let out ← resize out n 0
  .ok (out, pos)

/-- Opcode 1. -/
def unpackBlock : Partial (List UInt8 × ℕ) := do
  let (block, p) ← (take data pos value "Block").mapErr (out, ·)
  (grow out outLen value "Block").mapErr (out, ·)
  let out ← extend out block
  .ok (out, p)

/-- Opcode 2. -/
def unpackRepeat : Partial (List UInt8 × ℕ) := do
  let (count, pos) ← (varint data pos).mapErr (out, ·)
  let (block, pos) ← (take data pos value "Repeat").mapErr (out, ·)
  let n ← okOr (out, "Repeat size overflow")
    ((checkedAdd count 1).bind fun c => checkedMul c block.length)
  (grow out outLen n "Repeat").mapErr (out, ·)
  if 0 < n then do
    let out ← iterate (fun out => extend out block) (count + 1) out
    .ok (out, pos)
  else .ok (out, pos)

/-- The bytes that opcodes 3 and 4 emit. -/
def interleavedSize (customSize repeatCount : ℕ) (op : String) : Partial ℕ := do
  let perIter ← okOr (out, s!"{op} size overflow") (checkedAdd value customSize)
  let n ← okOr (out, s!"{op} size overflow")
    ((checkedMul repeatCount perIter).bind fun v => checkedAdd v value)
  (grow out outLen n op).mapErr (out, ·)
  .ok n

/-- One iteration of opcode 3. -/
def unpackRepeatBlockStep (common : List UInt8) (customSize : ℕ) (s : List UInt8 × ℕ) :
    Partial (List UInt8 × ℕ) := do
  let (custom, p) ← (take data s.2 customSize "RepeatBlock").mapErr (s.1, ·)
  let out ← extend s.1 common
  let out ← extend out custom
  .ok (out, p)

/-- Opcode 3. -/
def unpackRepeatBlock : Partial (List UInt8 × ℕ) := do
  let (customSize, pos) ← (varint data pos).mapErr (out, ·)
  let (repeatCount, pos) ← (varint data pos).mapErr (out, ·)
  let (common, pos) ← (take data pos value "RepeatBlock").mapErr (out, ·)
  let n ← interleavedSize outLen out value customSize repeatCount "RepeatBlock"
  if 0 < n then do
    let s ← iterate (unpackRepeatBlockStep data common customSize) repeatCount (out, pos)
    let out ← extend s.1 common
    .ok (out, s.2)
  else .ok (out, pos)

/-- One iteration of opcode 4. -/
def unpackRepeatZeroStep (commonSize customSize : ℕ) (s : List UInt8 × ℕ) :
    Partial (List UInt8 × ℕ) := do
  let n ← word (s.1.length + commonSize)
  let out ← resize s.1 n 0
  let (custom, p) ← (take data s.2 customSize "RepeatZero").mapErr (out, ·)
  let out ← extend out custom
  .ok (out, p)

/-- Opcode 4. -/
def unpackRepeatZero : Partial (List UInt8 × ℕ) := do
  let (customSize, pos) ← (varint data pos).mapErr (out, ·)
  let (repeatCount, pos) ← (varint data pos).mapErr (out, ·)
  let n ← interleavedSize outLen out value customSize repeatCount "RepeatZero"
  if 0 < n then do
    let s ← iterate (unpackRepeatZeroStep data value customSize) repeatCount (out, pos)
    let n ← word (s.1.length + value)
    let out ← resize s.1 n 0
    .ok (out, s.2)
  else .ok (out, pos)

/-- One instruction. -/
def unpackInstr : Partial (List UInt8 × ℕ) := do
  let (opcode, value, p) ← (unpackHead data pos).mapErr (out, ·)
  match opcode.toNat with
  | 0 => unpackZero outLen out p value
  | 1 => unpackBlock data outLen out p value
  | 2 => unpackRepeat data outLen out p value
  | 3 => unpackRepeatBlock data outLen out p value
  | 4 => unpackRepeatZero data outLen out p value
  | opcode => do
    let at_ ← wordSub p 1
    .err (out, s!"reserved packed-data opcode {opcode} at stream byte {at_}")

end

/-- The loop of `unpack_packed_partial`, for at most `fuel` instructions; each takes
    a byte, so that the length of the stream is enough. -/
def unpackLoop (data : List UInt8) (outLen : ℕ) : ℕ → List UInt8 → ℕ → Partial (List UInt8)
  | 0, _, _ => .panic
  | fuel + 1, out, pos =>
    if outLen ≤ out.length then
      if pos = data.length then .ok out
      else
        .err (out, s!"packed stream produced unpackedSize {out.length} but consumed only {pos} of {data.length} packedSize bytes")
    else if data.length ≤ pos then
      .err (out, s!"packed stream exhausted at {out.length}/{outLen} output bytes (stream pos {pos})")
    else do
      let (out, pos) ← unpackInstr data outLen out pos
      unpackLoop data outLen fuel out pos

/-- `unpack_packed_partial`. -/
def unpackPackedPartial (data : List UInt8) (outLen : ℕ) : Partial (List UInt8) := do
  let out ← withCapacity 1 outLen
  unpackLoop data outLen (data.length + 1) out 0

/-- `unpack_packed`. -/
def unpackPacked (data : List UInt8) (outLen : ℕ) : Outcome String (List UInt8) :=
  (unpackPackedPartial data outLen).mapErr Prod.snd

/-! ## No panic -/

theorem grow_safe {out : List UInt8} {outLen add : ℕ} {op : String} (hL : outLen ≤ isizeMax) :
    (grow out outLen add op).Safe fun _ => out.length + add ≤ outLen := by
  refine Safe.ensure.mono ?_
  intro _ h
  simp only [saturatingAdd, isizeMax, wordSize] at h hL ⊢
  omega

section
variable {data : List UInt8} (hlen : data.length ≤ isizeMax)
include hlen

theorem varintLoop_safe {fuel pos v count : ℕ} (hcount : fuel + count = 5) (hlt : count < 5) :
    (varintLoop data fuel pos v count).Safe fun r => pos ≤ r.2 ∧ r.2 ≤ data.length := by
  induction fuel generalizing pos v count with
  | zero => omega
  | succ fuel ih =>
    unfold varintLoop
    by_cases hend : data.length ≤ pos
    · rw [if_pos hend]
      trivial
    have hpos : pos < data.length := not_le.1 hend
    rw [if_neg hend, get_eq hpos, ok_bind, word_eq_of_le (hpos.trans_le hlen), ok_bind]
    refine (Safe.okOr (P := fun _ => True) fun _ _ => trivial).bind ?_
    intro v' _
    split_ifs with hlow hlong
    · exact ⟨Nat.le_succ pos, hpos⟩
    · trivial
    · refine Safe.mono (ih ?_ ?_) ?_
      · omega
      · omega
      · intro r hr
        exact ⟨by omega, hr.2⟩

theorem varint_safe {pos : ℕ} :
    (varint data pos).Safe fun r => pos ≤ r.2 ∧ r.2 ≤ data.length :=
  varintLoop_safe hlen rfl (by decide)

theorem take_safe {pos n : ℕ} {what : String} :
    (take data pos n what).Safe fun r => r.1.length = n ∧ pos ≤ r.2 ∧ r.2 ≤ data.length := by
  unfold take
  split_ifs with h
  · trivial
  have hle : pos + n ≤ data.length := by
    by_contra hlt
    refine h fun e he => ?_
    obtain ⟨rfl, -⟩ := checkedAdd_eq_some.1 he
    omega
  rw [word_eq_of_le (hle.trans hlen), ok_bind, slice_eq (by omega) hle, ok_bind]
  refine ⟨?_, by omega, hle⟩
  rw [List.length_drop, List.length_take]
  omega

theorem unpackHead_safe {pos : ℕ} (hpos : pos < data.length) :
    (unpackHead data pos).Safe fun r => pos < r.2.2 ∧ r.2.2 ≤ data.length := by
  unfold unpackHead
  rw [get_eq hpos, ok_bind, word_eq_of_le (hpos.trans_le hlen), ok_bind]
  split_ifs with hlow
  · refine (varint_safe hlen).bind ?_
    intro r hr
    exact hr
  · rw [ok_bind]
    exact ⟨Nat.lt_succ_self pos, hpos⟩

/-- The output stays within `outLen`, and the position within the stream. -/
def Within (data : List UInt8) (outLen pos : ℕ) (s : List UInt8 × ℕ) : Prop :=
  s.1.length ≤ outLen ∧ pos ≤ s.2 ∧ s.2 ≤ data.length

/-- After `j` blocks of `size` bytes. -/
def AfterBlocks (data out : List UInt8) (pos size j : ℕ) (s : List UInt8 × ℕ) : Prop :=
  s.1.length = out.length + j * size ∧ pos ≤ s.2 ∧ s.2 ≤ data.length

variable {outLen : ℕ} (hL : outLen ≤ isizeMax) {out : List UInt8} {pos value : ℕ}
include hL

omit hlen in
theorem resize_safe {n : ℕ} (hn : n ≤ outLen) :
    (resize out n 0 : Partial (List UInt8)).Safe fun o => o.length = n := by
  unfold resize
  split_ifs with h
  · exact List.length_take_of_le h
  · refine Safe.extend ?_ ?_
    · rw [List.length_replicate]
      omega
    · rw [List.length_append, List.length_replicate]
      omega

omit hlen in
theorem extend_safe {block : List UInt8} (h : out.length + block.length ≤ outLen) :
    (extend out block : Partial (List UInt8)).Safe fun o =>
      o.length = out.length + block.length :=
  Safe.extend (h.trans hL) List.length_append

omit hlen in
theorem unpackZero_safe (hpos : pos ≤ data.length) :
    (unpackZero outLen out pos value).Safe (Within data outLen pos) := by
  refine (grow_safe hL).mapErr.bind ?_
  intro _ hgrow
  rw [word_eq_of_le (hgrow.trans hL), ok_bind]
  refine (resize_safe hL hgrow).bind ?_
  intro o ho
  exact ⟨ho.le.trans hgrow, le_refl pos, hpos⟩

theorem unpackBlock_safe : (unpackBlock data outLen out pos value).Safe (Within data outLen pos) := by
  refine (take_safe hlen).mapErr.bind ?_
  rintro ⟨block, p⟩ ⟨rfl, hp⟩
  refine (grow_safe hL).mapErr.bind ?_
  intro _ hgrow
  refine (extend_safe hL hgrow).bind ?_
  intro o ho
  exact ⟨ho.le.trans hgrow, hp⟩

theorem unpackRepeat_safe (hout : out.length ≤ outLen) :
    (unpackRepeat data outLen out pos value).Safe (Within data outLen pos) := by
  refine (varint_safe hlen).mapErr.bind ?_
  rintro ⟨count, p⟩ ⟨hp, -⟩
  refine (take_safe hlen).mapErr.bind ?_
  rintro ⟨block, q⟩ ⟨-, hq, hq'⟩
  have hsize : ∀ n ∈ (checkedAdd count 1).bind fun c => checkedMul c block.length,
      n = (count + 1) * block.length := by
    intro n hn
    obtain ⟨c, hc, hn⟩ := Option.bind_eq_some_iff.1 hn
    obtain ⟨rfl, -⟩ := checkedAdd_eq_some.1 hc
    exact (checkedMul_eq_some.1 hn).1.symm
  refine (Safe.okOr hsize).bind ?_
  rintro n rfl
  refine (grow_safe hL).mapErr.bind ?_
  intro _ hgrow
  split_ifs with hn
  · have hrun := Safe.iterate (f := fun o => (extend o block : Partial (List UInt8)))
      (I := fun k o => o.length = out.length + k * block.length) (n := count + 1) (a := out)
      (by
        intro k hk o ho
        have hmul : (k + 1) * block.length ≤ (count + 1) * block.length :=
          Nat.mul_le_mul_right _ hk
        rw [Nat.succ_mul] at hmul
        refine (extend_safe hL (by omega)).mono ?_
        intro o' ho'
        rw [ho', ho, Nat.succ_mul, Nat.add_assoc])
      (by rw [Nat.zero_mul, Nat.add_zero])
    refine hrun.bind ?_
    intro o ho
    exact ⟨ho.le.trans hgrow, hp.trans hq, hq'⟩
  · exact ⟨hout, hp.trans hq, hq'⟩

omit hlen in
theorem interleavedSize_safe {customSize repeatCount : ℕ} {op : String} :
    (interleavedSize outLen out value customSize repeatCount op).Safe fun n =>
      n = repeatCount * (value + customSize) + value ∧ out.length + n ≤ outLen := by
  have hper : ∀ n ∈ checkedAdd value customSize, n = value + customSize := by
    intro n hn
    exact (checkedAdd_eq_some.1 hn).1.symm
  refine (Safe.okOr hper).bind ?_
  rintro _ rfl
  have hsize : ∀ n ∈ (checkedMul repeatCount (value + customSize)).bind fun v => checkedAdd v value,
      n = repeatCount * (value + customSize) + value := by
    intro n hn
    obtain ⟨v, hv, hn⟩ := Option.bind_eq_some_iff.1 hn
    obtain ⟨rfl, -⟩ := checkedMul_eq_some.1 hv
    exact (checkedAdd_eq_some.1 hn).1.symm
  refine (Safe.okOr hsize).bind ?_
  rintro n rfl
  refine (grow_safe hL).mapErr.bind ?_
  intro _ hgrow
  exact ⟨rfl, hgrow⟩

omit hlen hL in
theorem AfterBlocks.step {body : List UInt8 × ℕ → Partial (List UInt8 × ℕ)} {common k m j : ℕ}
    (hbody : ∀ s : List UInt8 × ℕ, s.1.length + (common + k) ≤ outLen → s.2 ≤ data.length →
      (body s).Safe fun s' => s'.1.length = s.1.length + (common + k) ∧ s.2 ≤ s'.2 ∧
        s'.2 ≤ data.length)
    (hgrow : out.length + (m * (common + k) + common) ≤ outLen) (hj : j < m) {s : List UInt8 × ℕ}
    (h : AfterBlocks data out pos (common + k) j s) :
    s.1.length + (common + k) ≤ outLen ∧
      (body s).Safe (AfterBlocks data out pos (common + k) (j + 1)) := by
  obtain ⟨hs, hs', hs''⟩ := h
  have hmul : (j + 1) * (common + k) ≤ m * (common + k) := Nat.mul_le_mul_right _ hj
  rw [Nat.succ_mul] at hmul
  have hfit : s.1.length + (common + k) ≤ outLen := by omega
  refine ⟨hfit, (hbody s hfit hs'').mono ?_⟩
  rintro s' ⟨h, h', h''⟩
  exact ⟨by rw [h, hs, Nat.succ_mul, Nat.add_assoc], hs'.trans h', h''⟩

omit hlen hL in
theorem AfterBlocks.zero {size : ℕ} (hpos : pos ≤ data.length) :
    AfterBlocks data out pos size 0 (out, pos) :=
  ⟨by rw [Nat.zero_mul, Nat.add_zero], le_refl pos, hpos⟩

omit hlen hL in
/-- The iterations of opcodes 3 and 4. -/
theorem iterate_blocks_safe {body : List UInt8 × ℕ → Partial (List UInt8 × ℕ)} {common k m : ℕ}
    (hbody : ∀ s : List UInt8 × ℕ, s.1.length + (common + k) ≤ outLen → s.2 ≤ data.length →
      (body s).Safe fun s' => s'.1.length = s.1.length + (common + k) ∧ s.2 ≤ s'.2 ∧
        s'.2 ≤ data.length)
    (hgrow : out.length + (m * (common + k) + common) ≤ outLen) (hpos : pos ≤ data.length) :
    (iterate body m (out, pos)).Safe (AfterBlocks data out pos (common + k) m) :=
  Safe.iterate (fun _ hj _ h => (h.step hbody hgrow hj).2) (.zero hpos)

omit hlen hL in
theorem iterate_blocks_errs {body : List UInt8 × ℕ → Partial (List UInt8 × ℕ)} {common k m : ℕ}
    {Q : List UInt8 × String → Prop}
    (hbody : ∀ s : List UInt8 × ℕ, s.1.length + (common + k) ≤ outLen → s.2 ≤ data.length →
      (body s).Safe fun s' => s'.1.length = s.1.length + (common + k) ∧ s.2 ≤ s'.2 ∧
        s'.2 ≤ data.length)
    (hQ : ∀ s : List UInt8 × ℕ, s.1.length + (common + k) ≤ outLen → (body s).Errs Q)
    (hgrow : out.length + (m * (common + k) + common) ≤ outLen) (hpos : pos ≤ data.length) :
    (iterate body m (out, pos)).Errs Q := by
  refine Errs.iterate (I := AfterBlocks data out pos (common + k)) ?_ ?_ (.zero hpos)
  · intro j hj s h
    exact (h.step hbody hgrow hj).2
  · intro j hj s h
    exact hQ s (h.step hbody hgrow hj).1

theorem unpackRepeatBlockStep_safe {common : List UInt8} {customSize : ℕ} {s : List UInt8 × ℕ}
    (hs : s.1.length + (common.length + customSize) ≤ outLen) :
    (unpackRepeatBlockStep data common customSize s).Safe fun s' =>
      s'.1.length = s.1.length + (common.length + customSize) ∧ s.2 ≤ s'.2 ∧
        s'.2 ≤ data.length := by
  refine (take_safe hlen).mapErr.bind ?_
  rintro ⟨custom, t⟩ ⟨hcustom, ht⟩
  dsimp only at hcustom ht
  refine (extend_safe hL (by omega)).bind ?_
  intro o' ho'
  refine (extend_safe hL (by omega)).bind ?_
  intro o'' ho''
  exact ⟨by rw [ho'', ho', hcustom, Nat.add_assoc], ht⟩

theorem unpackRepeatBlock_safe (hout : out.length ≤ outLen) :
    (unpackRepeatBlock data outLen out pos value).Safe (Within data outLen pos) := by
  refine (varint_safe hlen).mapErr.bind ?_
  rintro ⟨customSize, p⟩ ⟨hp, -⟩
  refine (varint_safe hlen).mapErr.bind ?_
  rintro ⟨repeatCount, q⟩ ⟨hq, -⟩
  refine (take_safe hlen).mapErr.bind ?_
  rintro ⟨common, r⟩ ⟨hcommon, hr, hr'⟩
  dsimp only at hcommon
  subst hcommon
  refine (interleavedSize_safe hL).bind ?_
  rintro n ⟨rfl, hgrow⟩
  have hpr : pos ≤ r := (hp.trans hq).trans hr
  split_ifs with hn
  · refine (iterate_blocks_safe ?_ hgrow hr').bind ?_
    · exact fun s hs _ => unpackRepeatBlockStep_safe hlen hL hs
    · rintro ⟨o, s⟩ ⟨ho, hs, hs'⟩
      dsimp only at ho
      refine (extend_safe hL (by dsimp only; omega)).bind ?_
      intro o' ho'
      exact ⟨by dsimp only at ho' ⊢; omega, hpr.trans hs, hs'⟩
  · exact ⟨hout, hpr, hr'⟩

theorem unpackRepeatZeroStep_safe {commonSize customSize : ℕ} {s : List UInt8 × ℕ}
    (hs : s.1.length + (commonSize + customSize) ≤ outLen) :
    (unpackRepeatZeroStep data commonSize customSize s).Safe fun s' =>
      s'.1.length = s.1.length + (commonSize + customSize) ∧ s.2 ≤ s'.2 ∧
        s'.2 ≤ data.length := by
  unfold unpackRepeatZeroStep
  rw [word_eq_of_le (by omega), ok_bind]
  refine (resize_safe hL (by omega)).bind ?_
  intro o' ho'
  refine (take_safe hlen).mapErr.bind ?_
  rintro ⟨custom, t⟩ ⟨hcustom, ht⟩
  dsimp only at hcustom ht
  refine (extend_safe hL (by omega)).bind ?_
  intro o'' ho''
  exact ⟨by rw [ho'', ho', hcustom, Nat.add_assoc], ht⟩

theorem unpackRepeatZero_safe (hout : out.length ≤ outLen) :
    (unpackRepeatZero data outLen out pos value).Safe (Within data outLen pos) := by
  refine (varint_safe hlen).mapErr.bind ?_
  rintro ⟨customSize, p⟩ ⟨hp, -⟩
  refine (varint_safe hlen).mapErr.bind ?_
  rintro ⟨repeatCount, q⟩ ⟨hq, hq'⟩
  refine (interleavedSize_safe hL).bind ?_
  rintro n ⟨rfl, hgrow⟩
  have hpq : pos ≤ q := hp.trans hq
  split_ifs with hn
  · refine (iterate_blocks_safe ?_ hgrow hq').bind ?_
    · exact fun s hs _ => unpackRepeatZeroStep_safe hlen hL hs
    · rintro ⟨o, s⟩ ⟨ho, hs, hs'⟩
      dsimp only at ho ⊢
      rw [word_eq_of_le (by omega), ok_bind]
      refine (resize_safe hL (by omega)).bind ?_
      intro o' ho'
      exact ⟨by dsimp only; omega, hpq.trans hs, hs'⟩
  · exact ⟨hout, hpq, hq'⟩

theorem unpackInstr_safe (hout : out.length ≤ outLen) (hpos : pos < data.length) :
    (unpackInstr data outLen out pos).Safe (Within data outLen (pos + 1)) := by
  refine (unpackHead_safe hlen hpos).mapErr.bind ?_
  rintro ⟨op, value, p⟩ ⟨hp, hp'⟩
  have hmono : ∀ s, Within data outLen p s → Within data outLen (pos + 1) s := by
    rintro s ⟨h, h', h''⟩
    exact ⟨h, Nat.le_trans hp h', h''⟩
  dsimp only
  split
  · exact (unpackZero_safe hL hp').mono hmono
  · exact (unpackBlock_safe hlen hL).mono hmono
  · exact (unpackRepeat_safe hlen hL hout).mono hmono
  · exact (unpackRepeatBlock_safe hlen hL hout).mono hmono
  · exact (unpackRepeatZero_safe hlen hL hout).mono hmono
  · rw [wordSub_eq (Nat.one_le_of_lt hp)]
    trivial

theorem unpackLoop_safe {fuel : ℕ} (hout : out.length ≤ outLen) (hpos : pos ≤ data.length)
    (hfuel : data.length - pos < fuel) :
    (unpackLoop data outLen fuel out pos).Safe fun o => o.length ≤ outLen := by
  induction fuel generalizing out pos with
  | zero => omega
  | succ fuel ih =>
    unfold unpackLoop
    split_ifs with hfull hend hend
    · exact hout
    · trivial
    · trivial
    · have hpos' : pos < data.length := not_le.1 hend
      refine (unpackInstr_safe hlen hL hout hpos').bind ?_
      rintro ⟨o, p⟩ ⟨ho, hp, hp'⟩
      exact ih ho hp' (by omega)

end

theorem unpackPackedPartial_safe {data : List UInt8} (hlen : data.length ≤ isizeMax) {outLen : ℕ}
    (hL : outLen ≤ isizeMax) :
    (unpackPackedPartial data outLen).Safe fun v => v.length ≤ outLen := by
  unfold unpackPackedPartial
  rw [withCapacity_eq (by rwa [Nat.one_mul]), ok_bind]
  exact unpackLoop_safe hlen hL (Nat.zero_le _) (Nat.zero_le _) (by omega)

/-- **No panic**: any stream is unpacked or refused. -/
theorem unpackPacked_safe {data : List UInt8} (hlen : data.length ≤ isizeMax) {outLen : ℕ}
    (hL : outLen ≤ isizeMax) : (unpackPacked data outLen).Safe fun v => v.length ≤ outLen :=
  (unpackPackedPartial_safe hlen hL).mapErr

/-- No vector is as long as this. -/
theorem unpackPacked_eq_panic (data : List UInt8) {outLen : ℕ} (hL : isizeMax < outLen) :
    unpackPacked data outLen = .panic := by
  have hcap : (withCapacity 1 outLen : Partial (List UInt8)) = .panic :=
    if_neg (by rw [Nat.one_mul]; exact not_le.2 hL)
  unfold unpackPacked unpackPackedPartial
  rw [hcap]
  rfl

end Usbmidi9
