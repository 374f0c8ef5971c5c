/-
  USBMIDI9 — the decompressor of the tools (`tools/re/pef_unpack.py`).

  An exception is `err`.  Integers have no bounds; a bytes object is no longer than
  `isizeMax`, and `zeros` and `extend` raise where one would be.

  `unpack_eq_ok` says on which streams `unpack` returns: those of the format, with
  varints of any length, since `unpack_next_value` does not count its bytes while
  `varint` refuses more than five.  `decoders_agree` is the difference between the
  two decompressors.
-/
import Usbmidi9.Pef.Exact

namespace Usbmidi9

open Outcome

namespace PefUnpack

/-! ## The decompressor -/

/-- What is raised. -/
inductive PyError where
  | indexError
  | overflowError
  | memoryError
  | valueError (msg : String)
deriving DecidableEq, Repr

/-- `b"\x00" * n`. -/
def zeros (n : ℕ) : Outcome PyError (List UInt8) :=
  if n ≤ isizeMax then .ok (List.replicate n 0) else .err .overflowError

/-- `out.extend(new)`. -/
def extend (out new : List UInt8) : Outcome PyError (List UInt8) :=
  if out.length + new.length ≤ isizeMax then .ok (out ++ new) else .err .memoryError

/-- The loop of `unpack_next_value`, over the bytes from `pos` on. -/
def nextValueLoop : List UInt8 → ℕ → ℕ → Outcome PyError (ℕ × ℕ)
  | [], _, _ => .err .indexError
  | b :: rest, v, pos =>
    let v := v * 128 + (b &&& 0x7F).toNat
    if b &&& 0x80 = 0 then .ok (v, pos + 1) else nextValueLoop rest v (pos + 1)

/-- `unpack_next_value`. -/
def unpackNextValue (data : List UInt8) (pos : ℕ) : Outcome PyError (ℕ × ℕ) :=
  nextValueLoop (data.drop pos) 0 pos

/-- `read_n`. -/
def readN (data : List UInt8) (pos n : ℕ) : Outcome PyError (List UInt8 × ℕ) :=
  if data.length < pos + n then
    .err (.valueError s!"truncated packed stream: need {n} at {pos} (len {data.length})")
  else .ok ((data.take (pos + n)).drop pos, pos + n)

/-- The head of an instruction, with the byte `b` at `pos`. -/
def head (data : List UInt8) (b : UInt8) (pos : ℕ) : Outcome PyError (ℕ × ℕ) :=
  if b &&& 0x1F = 0 then unpackNextValue data (pos + 1) else .ok ((b &&& 0x1F).toNat, pos + 1)

section
variable (data out : List UInt8) (pos value : ℕ)

/-- Opcode 0. -/
def opZero : Outcome PyError (List UInt8 × ℕ) := do
  let z ← zeros value
  let out ← extend out z
  .ok (out, pos)

/-- Opcode 1. -/
def opBlock : Outcome PyError (List UInt8 × ℕ) := do
  let (block, pos) ← readN data pos value
  let out ← extend out block
  .ok (out, pos)

/-- Opcode 2. -/
def opRepeat : Outcome PyError (List UInt8 × ℕ) := do
  let (count, pos) ← unpackNextValue data pos
  let (block, pos) ← readN data pos value
  let out ← iterate (fun out => extend out block) (count + 1) out
  .ok (out, pos)

/-- One iteration of opcode 3. -/
def opRepeatBlockStep (common : List UInt8) (customSize : ℕ) (s : List UInt8 × ℕ) :
    Outcome PyError (List UInt8 × ℕ) := do
  let out ← extend s.1 common
  let (custom, pos) ← readN data s.2 customSize
  let out ← extend out custom
  .ok (out, pos)

/-- Opcode 3. -/
def opRepeatBlock : Outcome PyError (List UInt8 × ℕ) := do
  let (customSize, pos) ← unpackNextValue data pos
  let (repeatCount, pos) ← unpackNextValue data pos
  let (common, pos) ← readN data pos value
  let s ← iterate (opRepeatBlockStep data common customSize) repeatCount (out, pos)
  let out ← extend s.1 common
  .ok (out, s.2)

/-- One iteration of opcode 4. -/
def opRepeatZeroStep (commonSize customSize : ℕ) (s : List UInt8 × ℕ) :
    Outcome PyError (List UInt8 × ℕ) := do
  let z ← zeros commonSize
  let out ← extend s.1 z
  let (custom, pos) ← readN data s.2 customSize
  let out ← extend out custom
  .ok (out, pos)

/-- Opcode 4. -/
def opRepeatZero : Outcome PyError (List UInt8 × ℕ) := do
  let (customSize, pos) ← unpackNextValue data pos
  let (repeatCount, pos) ← unpackNextValue data pos
  let s ← iterate (opRepeatZeroStep data value customSize) repeatCount (out, pos)
  let z ← zeros value
  let out ← extend s.1 z
  .ok (out, s.2)

/-- One instruction. -/
def instr : Outcome PyError (List UInt8 × ℕ) :=
  match data[pos]? with
  | none => .err .indexError
  | some b => do
    let (value, pos) ← head data b pos
    match (b >>> 5).toNat with
    | 0 => opZero out pos value
    | 1 => opBlock data out pos value
    | 2 => opRepeat data out pos value
    | 3 => opRepeatBlock data out pos value
    | 4 => opRepeatZero data out pos value
    | opcode => .err (.valueError s!"reserved opcode {opcode} at {pos - 1}")

end

/-- The loop of `unpack`, for at most `fuel` instructions. -/
def loop (data : List UInt8) (outLen : ℕ) : ℕ → List UInt8 → ℕ → Outcome PyError (List UInt8 × ℕ)
  | 0, _, _ => .panic
  | fuel + 1, out, pos =>
    if out.length < outLen then
      if data.length ≤ pos then
        .err (.valueError s!"stream exhausted at {out.length}/{outLen}")
      else do
        let (out, pos) ← instr data out pos
        loop data outLen fuel out pos
    else .ok (out, pos)

/-- `unpack`: the bytes and how many of the stream were consumed. -/
def unpack (data : List UInt8) (outLen : ℕ) : Outcome PyError (List UInt8 × ℕ) := do
  let (out, pos) ← loop data outLen (data.length + 1) [] 0
  if outLen < out.length then .err (.valueError s!"overrun: {out.length} > {outLen}")
  else if pos ≠ data.length then
    .err (.valueError s!"stream consumed {pos} of {data.length} packed bytes (not COMPLETE)")
  else .ok (out, pos)

/-! ## Successful instructions -/

theorem zeros_eq_ok {n : ℕ} {z : List UInt8} :
    zeros n = .ok z ↔ n ≤ isizeMax ∧ z = List.replicate n 0 := ite_eq_ok fun _ => nofun

theorem extend_eq_ok {out new out' : List UInt8} :
    extend out new = .ok out' ↔ out.length + new.length ≤ isizeMax ∧ out' = out ++ new :=
  ite_eq_ok fun _ => nofun

theorem nextValueLoop_eq_ok {rest : List UInt8} {v pos r p : ℕ} :
    nextValueLoop rest v pos = .ok (r, p) ↔
      ∃ w : Varint, w.bytes <+: rest ∧ p = pos + w.bytes.length ∧
        r = w.bytes.foldl Varint.push v := by
  induction rest generalizing v pos with
  | nil =>
    simp only [nextValueLoop, reduceCtorEq, false_iff, not_exists, not_and]
    intro w hpre
    have hlen := w.length_bytes
    rw [List.prefix_nil.1 hpre] at hlen
    simp at hlen
  | cons b rest ih =>
    rw [Varint.exists_prefix_cons
      (P := fun l => p = pos + l.length ∧ r = l.foldl Varint.push v)]
    unfold nextValueLoop
    dsimp only
    split_ifs with hlow
    · rw [ok.injEq, Prod.mk.injEq, eq_comm, and_comm, eq_comm (a := pos + 1)]
      rfl
    · rw [ih]
      simp only [List.length_cons, List.foldl_cons, Nat.add_assoc, Nat.add_comm 1]
      rfl

/-- **`unpack_next_value`** reads a varint of any length. -/
theorem unpackNextValue_eq_ok {data : List UInt8} {pos r p : ℕ} :
    unpackNextValue data pos = .ok (r, p) ↔
      ∃ w : Varint, w.bytes <+: data.drop pos ∧ p = pos + w.bytes.length ∧ r = w.value :=
  nextValueLoop_eq_ok

/-- In the form that `counts_eq_ok` takes. -/
theorem unpackNextValue_eq_ok' {data : List UInt8} {pos r p : ℕ} :
    unpackNextValue data pos = .ok (r, p) ↔
      ∃ w : Varint, True ∧ w.bytes <+: data.drop pos ∧ p = pos + w.bytes.length ∧ r = w.value := by
  simpa only [true_and] using unpackNextValue_eq_ok

theorem zeros_final_eq_ok {value : ℕ} {out o : List UInt8} {pos p : ℕ} :
    (zeros value >>= fun z => extend out z >>= fun out => .ok (out, pos)) = .ok (o, p) ↔
      p = pos ∧ o = out ++ List.replicate value 0 ∧ o.length ≤ isizeMax := by
  rw [bind_eq_ok]
  simp only [zeros_eq_ok, extended_eq_ok extend_eq_ok]
  constructor
  · rintro ⟨_, ⟨-, rfl⟩, h⟩
    exact h
  · rintro ⟨rfl, rfl, hle⟩
    refine ⟨_, ⟨?_, rfl⟩, rfl, rfl, hle⟩
    rw [List.length_append, List.length_replicate] at hle
    omega

section
variable {data : List UInt8}

theorem readN_eq_ok {pos n : ℕ} (hpos : pos ≤ data.length) {b : List UInt8} {p : ℕ} :
    readN data pos n = .ok (b, p) ↔ b <+: data.drop pos ∧ b.length = n ∧ p = pos + n := by
  unfold readN
  split_ifs with hlt
  · simp only [false_iff, not_and]
    rintro hpre rfl
    have hle := le_of_prefix_drop hpos hpre
    omega
  · rw [ok.injEq, Prod.mk.injEq, List.drop_take, Nat.add_sub_cancel_left]
    constructor
    · rintro ⟨rfl, rfl⟩
      refine ⟨List.take_prefix _ _, ?_, rfl⟩
      rw [List.length_take, List.length_drop]
      omega
    · rintro ⟨hpre, rfl, rfl⟩
      exact ⟨(List.prefix_iff_eq_take.1 hpre).symm, rfl⟩

variable {out o : List UInt8} {pos p value : ℕ}

theorem opZero_eq_ok :
    opZero out pos value = .ok (o, p) ↔
      p = pos ∧ o = out ++ List.replicate value 0 ∧ o.length ≤ isizeMax :=
  zeros_final_eq_ok

variable (hpos : pos ≤ data.length)
include hpos

theorem opBlock_eq_ok :
    opBlock data out pos value = .ok (o, p) ↔
      ∃ b, b.length = value ∧ b <+: data.drop pos ∧ p = pos + b.length ∧ o = out ++ b ∧
        o.length ≤ isizeMax := by
  simp only [opBlock, bind_eq_ok, Prod.exists, readN_eq_ok hpos, extend_eq_ok, ok.injEq,
    Prod.mk.injEq]
  constructor
  · rintro ⟨b, _, ⟨hpre, rfl, rfl⟩, _, ⟨hle, rfl⟩, rfl, rfl⟩
    exact ⟨b, rfl, hpre, rfl, rfl, by rwa [List.length_append]⟩
  · rintro ⟨b, rfl, hpre, rfl, rfl, hle⟩
    rw [List.length_append] at hle
    exact ⟨b, _, ⟨hpre, rfl, rfl⟩, _, ⟨hle, rfl⟩, rfl, rfl⟩

variable (hout : out.length ≤ isizeMax)
include hout

theorem opRepeat_eq_ok :
    opRepeat data out pos value = .ok (o, p) ↔
      ∃ (w : Varint) (b : List UInt8), b.length = value ∧ w.bytes ++ b <+: data.drop pos ∧
        p = pos + (w.bytes ++ b).length ∧
        o = out ++ (List.replicate (w.value + 1) b).flatten ∧ o.length ≤ isizeMax := by
  simp only [opRepeat, bind_eq_ok, Prod.exists, unpackNextValue_eq_ok,
    iterate_extend_eq_ok extend_eq_ok hout, ok.injEq, Prod.mk.injEq]
  constructor
  · rintro ⟨_, _, ⟨w, hpre, rfl, rfl⟩, b, _, hread, _, ⟨rfl, hle⟩, rfl, rfl⟩
    obtain ⟨hpre', rfl, rfl⟩ := (readN_eq_ok (le_of_prefix_drop hpos hpre)).1 hread
    exact ⟨w, b, rfl, append_prefix_drop.2 ⟨hpre, hpre'⟩, add_length_add_length, rfl, hle⟩
  · rintro ⟨w, b, rfl, hpre, rfl, rfl, hle⟩
    obtain ⟨hpre, hpre'⟩ := append_prefix_drop.1 hpre
    exact ⟨_, _, ⟨w, hpre, rfl, rfl⟩, b, _,
      (readN_eq_ok (le_of_prefix_drop hpos hpre)).2 ⟨hpre', rfl, rfl⟩, _, ⟨rfl, hle⟩, rfl,
      add_length_add_length⟩

omit hpos hout in
theorem opRepeatBlockStep_eq_ok {common : List UInt8} {k : ℕ} :
    BlockStep data common k (opRepeatBlockStep data common k) := by
  intro out pos o p hpos _
  simp only [opRepeatBlockStep, bind_eq_ok, Prod.exists, readN_eq_ok hpos, extend_eq_ok, ok.injEq,
    Prod.mk.injEq]
  constructor
  · rintro ⟨_, ⟨-, rfl⟩, c, _, ⟨hpre, hc, rfl⟩, _, ⟨hle, rfl⟩, rfl, rfl⟩
    rw [← List.length_append] at hle
    exact ⟨c, hc, hpre, rfl, List.append_assoc .., hle⟩
  · rintro ⟨c, hc, hpre, rfl, rfl, hle⟩
    simp only [List.length_append] at hle
    refine ⟨_, ⟨by omega, rfl⟩, c, _, ⟨hpre, hc, rfl⟩, _, ⟨?_, rfl⟩, List.append_assoc .., rfl⟩
    rw [List.length_append]
    omega

omit hpos hout in
theorem opRepeatZeroStep_eq_ok {common k : ℕ} :
    BlockStep data (List.replicate common 0) k (opRepeatZeroStep data common k) := by
  intro out pos o p hpos hout
  simp only [opRepeatZeroStep, bind_eq_ok, Prod.exists, zeros_eq_ok, readN_eq_ok hpos,
    extend_eq_ok, ok.injEq, Prod.mk.injEq]
  constructor
  · rintro ⟨_, ⟨-, rfl⟩, _, ⟨-, rfl⟩, c, _, ⟨hpre, hc, rfl⟩, _, ⟨hle, rfl⟩, rfl, rfl⟩
    rw [← List.length_append] at hle
    exact ⟨c, hc, hpre, rfl, List.append_assoc .., hle⟩
  · rintro ⟨c, hc, hpre, rfl, rfl, hle⟩
    simp only [List.length_append, List.length_replicate] at hle
    refine ⟨_, ⟨by omega, rfl⟩, _, ⟨?_, rfl⟩, c, _, ⟨hpre, hc, rfl⟩, _, ⟨?_, rfl⟩,
      List.append_assoc .., rfl⟩
    · rw [List.length_replicate]
      omega
    · rw [List.length_append, List.length_replicate]
      omega

theorem opRepeatBlock_eq_ok :
    opRepeatBlock data out pos value = .ok (o, p) ↔
      ∃ (ws wc : Varint) (common : List UInt8) (customs : List (List UInt8)),
        common.length = value ∧ (∀ c ∈ customs, c.length = ws.value) ∧
        customs.length = wc.value ∧
        ws.bytes ++ (wc.bytes ++ (common ++ customs.flatten)) <+: data.drop pos ∧
        p = pos + (ws.bytes ++ (wc.bytes ++ (common ++ customs.flatten))).length ∧
        o = out ++ PackedInstr.interleave common customs ∧ o.length ≤ isizeMax := by
  unfold opRepeatBlock
  rw [counts_eq_ok unpackNextValue_eq_ok']
  constructor
  · rintro ⟨ws, wc, -, -, hpre, h⟩
    have hpos' := le_of_prefix_drop hpos hpre
    rw [bind_eq_ok] at h
    obtain ⟨⟨common, _⟩, hread, h⟩ := h
    obtain ⟨hpre', rfl, rfl⟩ := (readN_eq_ok hpos').1 hread
    obtain ⟨customs, hcount, hsize, hpre'', rfl, rfl, hle⟩ := (blocks_eq_ok opRepeatBlockStep_eq_ok
      (fun _ => extended_eq_ok extend_eq_ok) (le_of_prefix_drop hpos' hpre') hout).1 h
    refine ⟨ws, wc, common, customs, rfl, hsize, hcount, ?_, ?_, rfl, hle⟩
    · rw [← List.append_assoc]
      exact append_prefix_drop.2 ⟨hpre, append_prefix_drop.2 ⟨hpre', hpre''⟩⟩
    · simp only [List.length_append, Nat.add_assoc]
  · rintro ⟨ws, wc, common, customs, rfl, hsize, hcount, hpre, rfl, rfl, hle⟩
    rw [← List.append_assoc] at hpre
    obtain ⟨hpre, hpre'⟩ := append_prefix_drop.1 hpre
    obtain ⟨hpre', hpre''⟩ := append_prefix_drop.1 hpre'
    have hpos' := le_of_prefix_drop hpos hpre
    refine ⟨ws, wc, trivial, trivial, hpre, ?_⟩
    rw [bind_eq_ok]
    refine ⟨_, (readN_eq_ok hpos').2 ⟨hpre', rfl, rfl⟩, ?_⟩
    refine (blocks_eq_ok opRepeatBlockStep_eq_ok (fun _ => extended_eq_ok extend_eq_ok)
      (le_of_prefix_drop hpos' hpre') hout).2 ⟨customs, hcount, hsize, hpre'', ?_, rfl, hle⟩
    simp only [List.length_append, Nat.add_assoc]

theorem opRepeatZero_eq_ok :
    opRepeatZero data out pos value = .ok (o, p) ↔
      ∃ (ws wc : Varint) (customs : List (List UInt8)),
        (∀ c ∈ customs, c.length = ws.value) ∧ customs.length = wc.value ∧
        ws.bytes ++ (wc.bytes ++ customs.flatten) <+: data.drop pos ∧
        p = pos + (ws.bytes ++ (wc.bytes ++ customs.flatten)).length ∧
        o = out ++ PackedInstr.interleave (List.replicate value 0) customs ∧
        o.length ≤ isizeMax := by
  unfold opRepeatZero
  rw [counts_eq_ok unpackNextValue_eq_ok']
  constructor
  · rintro ⟨ws, wc, -, -, hpre, h⟩
    have hpos' := le_of_prefix_drop hpos hpre
    obtain ⟨customs, hcount, hsize, hpre', rfl, rfl, hle⟩ := (blocks_eq_ok opRepeatZeroStep_eq_ok
      (fun _ => zeros_final_eq_ok) hpos' hout).1 h
    refine ⟨ws, wc, customs, hsize, hcount, ?_, ?_, rfl, hle⟩
    · rw [← List.append_assoc]
      exact append_prefix_drop.2 ⟨hpre, hpre'⟩
    · simp only [List.length_append, Nat.add_assoc]
  · rintro ⟨ws, wc, customs, hsize, hcount, hpre, rfl, rfl, hle⟩
    rw [← List.append_assoc] at hpre
    obtain ⟨hpre, hpre'⟩ := append_prefix_drop.1 hpre
    have hpos' := le_of_prefix_drop hpos hpre
    refine ⟨ws, wc, trivial, trivial, hpre, ?_⟩
    refine (blocks_eq_ok opRepeatZeroStep_eq_ok (fun _ => zeros_final_eq_ok) hpos' hout).2
      ⟨customs, hcount, hsize, hpre', ?_, rfl, hle⟩
    simp only [List.length_append, Nat.add_assoc]

end

/-- **One instruction** of the format, with varints of any length, is unpacked. -/
theorem instr_eq_ok {data out o : List UInt8} (hout : out.length ≤ isizeMax) {pos p : ℕ}
    (hpos : pos < data.length) :
    instr data out pos = .ok (o, p) ↔
      ∃ i : PackedInstr, i.encode <+: data.drop pos ∧ p = pos + i.encode.length ∧
        o = out ++ i.expand ∧ o.length ≤ isizeMax := by
  have hget : data[pos]? = some data[pos] := List.getElem?_eq_getElem hpos
  generalize data[pos] = b at hget
  have hvalue : ∀ {op : UInt8}, b >>> 5 = op → ∀ {r p}, head data b pos = .ok (r, p) ↔
      ∃ h : PackedHead op, h.bytes <+: data.drop pos ∧ p = pos + h.bytes.length ∧ r = h.value := by
    rintro _ rfl r p
    unfold head
    rw [value_eq_ok unpackNextValue_eq_ok' hget]
    simp only [implies_true, true_and]
  have hbyte : ∀ {op : UInt8} {h : PackedHead op}, h.bytes <+: data.drop pos → b >>> 5 = op := by
    intro op h hpre
    obtain ⟨hfirst, -⟩ := cons_prefix_drop.1 hpre
    rw [Option.some.inj (hget.symm.trans hfirst)]
    exact h.op_eq
  unfold instr
  rw [hget]
  simp only [bind_eq_ok, Prod.exists]
  constructor
  · rintro ⟨value, q, hhead, h⟩
    generalize hop : b >>> 5 = op at h
    obtain ⟨head, hpre, rfl, rfl⟩ := (hvalue hop).1 hhead
    clear hop
    have hq := le_of_prefix_drop hpos.le hpre
    split at h
    case h_1 hop =>
      obtain rfl : op = 0 := UInt8.toNat_inj.1 hop
      obtain ⟨rfl, rfl, hle⟩ := opZero_eq_ok.1 h
      exact ⟨.zero head, hpre, rfl, rfl, hle⟩
    case h_2 hop =>
      obtain rfl : op = 1 := UInt8.toNat_inj.1 hop
      obtain ⟨b, hb, hpre', rfl, rfl, hle⟩ := (opBlock_eq_ok hq).1 h
      exact ⟨.block head b hb, append_prefix_drop.2 ⟨hpre, hpre'⟩, add_length_add_length, rfl, hle⟩
    case h_3 hop =>
      obtain rfl : op = 2 := UInt8.toNat_inj.1 hop
      obtain ⟨w, b, hb, hpre', rfl, rfl, hle⟩ := (opRepeat_eq_ok hq hout).1 h
      exact ⟨.repeat_ head w b hb, append_prefix_drop.2 ⟨hpre, hpre'⟩, add_length_add_length, rfl,
        hle⟩
    case h_4 hop =>
      obtain rfl : op = 3 := UInt8.toNat_inj.1 hop
      obtain ⟨ws, wc, common, customs, hcommon, hsize, hcount, hpre', rfl, rfl, hle⟩ :=
        (opRepeatBlock_eq_ok hq hout).1 h
      exact ⟨.repeatBlock head ws wc common customs hcommon hsize hcount,
        append_prefix_drop.2 ⟨hpre, hpre'⟩, add_length_add_length, rfl, hle⟩
    case h_5 hop =>
      obtain rfl : op = 4 := UInt8.toNat_inj.1 hop
      obtain ⟨ws, wc, customs, hsize, hcount, hpre', rfl, rfl, hle⟩ :=
        (opRepeatZero_eq_ok hq hout).1 h
      exact ⟨.repeatZero head ws wc customs hsize hcount,
        append_prefix_drop.2 ⟨hpre, hpre'⟩, add_length_add_length, rfl, hle⟩
    case h_6 => cases h
  · rintro ⟨i, hpre, rfl, rfl, hle⟩
    cases i with
    | zero head =>
      have hop := hbyte hpre
      refine ⟨_, _, (hvalue hop).2 ⟨head, hpre, rfl, rfl⟩, ?_⟩
      rw [hop]
      exact opZero_eq_ok.2 ⟨rfl, rfl, hle⟩
    | block head b hb =>
      obtain ⟨hpre, hpre'⟩ := append_prefix_drop.1 hpre
      have hop := hbyte hpre
      have hq := le_of_prefix_drop hpos.le hpre
      refine ⟨_, _, (hvalue hop).2 ⟨head, hpre, rfl, rfl⟩, ?_⟩
      rw [hop]
      exact (opBlock_eq_ok hq).2 ⟨b, hb, hpre', add_length_add_length.symm, rfl, hle⟩
    | repeat_ head w b hb =>
      obtain ⟨hpre, hpre'⟩ := append_prefix_drop.1 hpre
      have hop := hbyte hpre
      have hq := le_of_prefix_drop hpos.le hpre
      refine ⟨_, _, (hvalue hop).2 ⟨head, hpre, rfl, rfl⟩, ?_⟩
      rw [hop]
      exact (opRepeat_eq_ok hq hout).2 ⟨w, b, hb, hpre', add_length_add_length.symm, rfl, hle⟩
    | repeatBlock head ws wc common customs hcommon hsize hcount =>
      obtain ⟨hpre, hpre'⟩ := append_prefix_drop.1 hpre
      have hop := hbyte hpre
      have hq := le_of_prefix_drop hpos.le hpre
      refine ⟨_, _, (hvalue hop).2 ⟨head, hpre, rfl, rfl⟩, ?_⟩
      rw [hop]
      exact (opRepeatBlock_eq_ok hq hout).2
        ⟨ws, wc, common, customs, hcommon, hsize, hcount, hpre', add_length_add_length.symm, rfl, hle⟩
    | repeatZero head ws wc customs hsize hcount =>
      obtain ⟨hpre, hpre'⟩ := append_prefix_drop.1 hpre
      have hop := hbyte hpre
      have hq := le_of_prefix_drop hpos.le hpre
      refine ⟨_, _, (hvalue hop).2 ⟨head, hpre, rfl, rfl⟩, ?_⟩
      rw [hop]
      exact (opRepeatZero_eq_ok hq hout).2
        ⟨ws, wc, customs, hsize, hcount, hpre', add_length_add_length.symm, rfl, hle⟩

/-- **The loop** returns with all of `outLen` bytes at the end of the stream exactly if
    what is left is the rest of a stream. -/
theorem loop_eq_ok {data : List UInt8} {outLen : ℕ} (hL : outLen ≤ isizeMax) {fuel : ℕ}
    {out : List UInt8} (hout : out.length ≤ isizeMax) {pos : ℕ} (hpos : pos ≤ data.length)
    (hfuel : data.length - pos < fuel) {v : List UInt8} :
    loop data outLen fuel out pos = .ok (v, data.length) ∧ v.length = outLen ↔
      PackedRest (fun _ => True) data outLen pos out v := by
  induction fuel generalizing out pos with
  | zero => omega
  | succ fuel ih =>
    unfold loop
    by_cases hfull : outLen ≤ out.length
    · rw [if_neg (not_lt.2 hfull), packedRest_full hfull hpos, ok.injEq, Prod.mk.injEq]
      constructor
      · rintro ⟨⟨rfl, rfl⟩, hlen⟩
        exact ⟨rfl, rfl, hlen⟩
      · rintro ⟨rfl, rfl, hlen⟩
        exact ⟨⟨rfl, rfl⟩, hlen⟩
    rw [if_pos (not_le.1 hfull)]
    by_cases hend : data.length ≤ pos
    · rw [if_pos hend]
      refine iff_of_false ?_ (not_packedRest hfull hend)
      rintro ⟨heq, -⟩
      cases heq
    rw [if_neg hend, packedRest_cons hfull]
    simp only [bind_eq_ok, Prod.exists, instr_eq_ok hout (not_le.1 hend)]
    have hnext : ∀ {i : PackedInstr} {o : List UInt8}, i.encode <+: data.drop pos →
        o.length ≤ isizeMax →
          (loop data outLen fuel o (pos + i.encode.length) = .ok (v, data.length) ∧
              v.length = outLen ↔
            PackedRest (fun _ => True) data outLen (pos + i.encode.length) o v) := by
      intro i o hpre hle
      have hne := List.length_pos_of_ne_nil i.encode_ne_nil
      exact ih hle (le_of_prefix_drop hpos hpre) (by omega)
    constructor
    · rintro ⟨⟨_, _, ⟨i, hpre, rfl, rfl, hle⟩, hrest⟩, hlen⟩
      exact ⟨i, trivial, hpre, (hnext hpre hle).1 ⟨hrest, hlen⟩⟩
    · rintro ⟨i, -, hpre, hrest⟩
      have hle := hrest.le.trans hL
      obtain ⟨hloop, hlen⟩ := (hnext hpre hle).2 hrest
      exact ⟨⟨_, _, ⟨i, hpre, rfl, rfl, hle⟩, hloop⟩, hlen⟩

/-- The loop runs until there are `outLen` bytes. -/
theorem le_length_of_loop {data out o : List UInt8} {outLen fuel pos p : ℕ}
    (h : loop data outLen fuel out pos = .ok (o, p)) : outLen ≤ o.length := by
  induction fuel generalizing out pos with
  | zero => cases h
  | succ fuel ih =>
    unfold loop at h
    split_ifs at h with hfull hend
    · obtain ⟨s, -, hrest⟩ := bind_eq_ok.1 h
      exact ih hrest
    · obtain ⟨rfl, -⟩ := Prod.mk.inj (ok.inj h)
      exact not_lt.1 hfull

/-- **`unpack`** returns on the streams of the format, with varints of any length. -/
theorem unpack_eq_ok {data : List UInt8} {outLen : ℕ} (hL : outLen ≤ isizeMax) {v : List UInt8} :
    unpack data outLen = .ok (v, data.length) ↔ ∃ l, UnpacksBy l data outLen v := by
  have hnil : ([] : List UInt8).length ≤ isizeMax := Nat.zero_le _
  have hrest : PackedRest (fun _ => True) data outLen 0 [] v ↔ ∃ l, UnpacksBy l data outLen v := by
    constructor
    · rintro ⟨l, -, hdata, rfl, hstream⟩
      exact ⟨l, hdata, rfl, hstream⟩
    · rintro ⟨l, hdata, rfl, hstream⟩
      exact ⟨l, fun _ _ => trivial, hdata, rfl, hstream⟩
  rw [← hrest, ← loop_eq_ok hL hnil (Nat.zero_le _) (Nat.lt_succ_self data.length), unpack,
    bind_eq_ok]
  constructor
  · rintro ⟨⟨out, pos⟩, hrun, h⟩
    have hfull := le_length_of_loop hrun
    dsimp only at h
    split_ifs at h with hover hend
    obtain ⟨rfl, rfl⟩ := Prod.mk.inj (ok.inj h)
    exact ⟨hrun, le_antisymm (not_lt.1 hover) hfull⟩
  · rintro ⟨hrun, hlen⟩
    refine ⟨_, hrun, ?_⟩
    dsimp only
    rw [if_neg (by rw [hlen]; exact lt_irrefl _), if_neg (not_not.2 rfl)]

/-! ## Every run ends -/

section
variable {data out : List UInt8} {pos value : ℕ}

theorem zeros_safe {n : ℕ} : (zeros n).Safe fun _ => True := by
  unfold zeros
  split_ifs <;> trivial

theorem extend_safe {new : List UInt8} : (extend out new).Safe fun _ => True := by
  unfold extend
  split_ifs <;> trivial

theorem unpackNextValue_safe : (unpackNextValue data pos).Safe fun _ => True := by
  have hloop : ∀ {rest v pos}, (nextValueLoop rest v pos).Safe fun _ => True := by
    intro rest
    induction rest with
    | nil => exact fun {_ _} => trivial
    | cons b rest ih =>
      intro v pos
      unfold nextValueLoop
      dsimp only
      split_ifs
      · trivial
      · exact ih
  exact hloop

theorem readN_safe {n : ℕ} : (readN data pos n).Safe fun _ => True := by
  unfold readN
  split_ifs <;> trivial

theorem instr_safe : (instr data out pos).Safe fun _ => True := by
  unfold instr
  cases data[pos]? with
  | none => trivial
  | some b =>
    have hhead : (head data b pos).Safe fun _ => True := by
      unfold head
      split_ifs
      · exact unpackNextValue_safe
      · trivial
    refine hhead.bind ?_
    rintro ⟨value, q⟩ -
    dsimp only
    split
    · exact zeros_safe.bind fun z _ => extend_safe.bind fun _ _ => trivial
    · exact readN_safe.bind fun b _ => extend_safe.bind fun _ _ => trivial
    · refine unpackNextValue_safe.bind fun count _ => readN_safe.bind fun b _ => ?_
      exact (Safe.iterate_true fun _ => extend_safe).bind fun _ _ => trivial
    · refine unpackNextValue_safe.bind fun size _ => unpackNextValue_safe.bind fun count _ => ?_
      refine readN_safe.bind fun common _ => (Safe.iterate_true fun s => ?_).bind fun s _ => ?_
      · exact extend_safe.bind fun _ _ => readN_safe.bind fun _ _ => extend_safe.bind fun _ _ =>
          trivial
      · exact extend_safe.bind fun _ _ => trivial
    · refine unpackNextValue_safe.bind fun size _ => unpackNextValue_safe.bind fun count _ => ?_
      refine (Safe.iterate_true fun s => ?_).bind fun s _ => ?_
      · exact zeros_safe.bind fun _ _ => extend_safe.bind fun _ _ => readN_safe.bind fun _ _ =>
          extend_safe.bind fun _ _ => trivial
      · exact zeros_safe.bind fun _ _ => extend_safe.bind fun _ _ => trivial
    · trivial

/-- The loop ends within its bound, with no more bytes than an object can have. -/
theorem loop_safe {outLen fuel : ℕ} (hout : out.length ≤ isizeMax) (hpos : pos ≤ data.length)
    (hfuel : data.length - pos < fuel) :
    (loop data outLen fuel out pos).Safe fun s => s.1.length ≤ isizeMax := by
  induction fuel generalizing out pos with
  | zero => omega
  | succ fuel ih =>
    unfold loop
    split_ifs with hfull hend
    · trivial
    · refine instr_safe.with_eq.bind ?_
      rintro ⟨o, p⟩ ⟨-, hinstr⟩
      obtain ⟨i, hpre, rfl, rfl, hle⟩ := (instr_eq_ok hout (not_le.1 hend)).1 hinstr
      have hpos' := le_of_prefix_drop hpos hpre
      have hne := List.length_pos_of_ne_nil i.encode_ne_nil
      exact ih hle hpos' (by omega)
    · exact hout

theorem unpack_safe {outLen : ℕ} : (unpack data outLen).Safe fun s => s.1.length ≤ isizeMax := by
  refine (loop_safe (Nat.zero_le _) (Nat.zero_le _) (Nat.lt_succ_self _)).bind ?_
  rintro ⟨o, p⟩ ho
  dsimp only
  split_ifs
  · trivial
  · trivial
  · exact ho

/-- No object is as long as this. -/
theorem unpack_ne_ok {outLen : ℕ} (hL : isizeMax < outLen) (s : List UInt8 × ℕ) :
    unpack data outLen ≠ .ok s := by
  intro h
  have hle := unpack_safe.of_eq_ok h
  obtain ⟨⟨o, p⟩, hrun, hs⟩ := bind_eq_ok.1 h
  have hfull := le_length_of_loop hrun
  dsimp only at hs
  split_ifs at hs
  obtain rfl := ok.inj hs
  exact absurd (hL.trans_le hfull) (not_lt.2 hle)

end

end PefUnpack

/-! ## The two decompressors -/

/-- **The decompressors agree** exactly where no varint of a complete stream is longer
    than five bytes. -/
theorem decoders_agree (data : Slice) (outLen : ℕ) :
    (∀ v, unpackPacked data.bytes outLen = .ok v ↔
        PefUnpack.unpack data.bytes outLen = .ok (v, data.bytes.length)) ↔
      (outLen ≤ isizeMax → ∀ l v, UnpacksBy l data.bytes outLen v → ∀ i ∈ l, i.Short) := by
  by_cases hL : outLen ≤ isizeMax
  · simp only [unpackPacked_eq_ok data.length_le hL, PefUnpack.unpack_eq_ok hL, hL, true_implies]
    constructor
    · intro hagree l v hl
      obtain ⟨l', hl', hshort⟩ := (hagree v).2 ⟨l, hl⟩
      obtain rfl := PackedStream.unique (hl.1.symm.trans hl'.1)
      exact hshort
    · intro hshort v
      constructor
      · rintro ⟨l, hl, -⟩
        exact ⟨l, hl⟩
      · rintro ⟨l, hl⟩
        exact ⟨l, hl, hshort l v hl⟩
  · simp only [unpackPacked_eq_panic data.bytes (not_le.1 hL), PefUnpack.unpack_ne_ok (not_le.1 hL),
      hL, reduceCtorEq, false_implies, implies_true]

/-- A zero whose count is 1 in six bytes. -/
theorem unpack_long_varint :
    unpackPacked [0x00, 0x80, 0x80, 0x80, 0x80, 0x80, 0x01] 1 = .err "varint too long" ∧
      PefUnpack.unpack [0x00, 0x80, 0x80, 0x80, 0x80, 0x80, 0x01] 1 = .ok ([0], 7) := by
  decide

end Usbmidi9
