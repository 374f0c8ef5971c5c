/-
  USBMIDI9 — the packed-data format of PEF sections, as `pefcheck/src/pef.rs`
  documents it.

  A packed stream is a sequence of instructions.  The first byte of an
  instruction has its opcode in the top three bits and a count in the low five;
  if these are zero, a varint follows with the count.  `PackedInstr` is an
  instruction as it is written, `encode` its bytes and `expand` what it stands
  for.

  `PackedStream` says when instructions are a stream for a given number of
  bytes, and `Unpacks` what the bytes of such a stream unpack to, where no varint
  is longer than five bytes.  Instructions can be told apart
  (`PackedInstr.encode_inj`), so a byte string is one stream at most.
-/
import Mathlib

namespace Usbmidi9

/-! ## Counts -/

/-- A varint: 7-bit groups, the most significant first; the high bit says that
    another byte follows. -/
structure Varint where
  init : List UInt8
  last : UInt8
  init_high : ∀ b ∈ init, b &&& 0x80 ≠ 0
  last_low : last &&& 0x80 = 0

namespace Varint
variable (v : Varint)

def bytes : List UInt8 := v.init ++ [v.last]

/-- One more group. -/
def push (n : ℕ) (b : UInt8) : ℕ := n * 128 + (b &&& 0x7F).toNat

def value : ℕ := v.bytes.foldl push 0

/-- At most five bytes. -/
def Short : Prop := v.bytes.length ≤ 5

theorem push_lt {n k : ℕ} (hn : n < 128 ^ k) (b : UInt8) : push n b < 128 ^ (k + 1) := by
  have hb : (b &&& 0x7F).toNat < 128 := by
    rw [UInt8.toNat_and]
    exact lt_of_le_of_lt Nat.and_le_right (by decide)
  rw [push, pow_succ]
  omega

theorem foldl_push_lt {l : List UInt8} {n k : ℕ} (hn : n < 128 ^ k) :
    l.foldl push n < 128 ^ (k + l.length) := by
  induction l generalizing n k with
  | nil => exact hn
  | cons b l ih =>
    rw [List.foldl_cons, List.length_cons, ← Nat.add_assoc, Nat.add_right_comm]
    exact ih (push_lt hn b)

/-- The count of a short varint fits 35 bits. -/
theorem Short.value_lt {v : Varint} (h : v.Short) : v.value < 128 ^ 5 := by
  have hlt : v.value < 128 ^ (0 + v.bytes.length) := foldl_push_lt (by decide)
  exact lt_of_lt_of_le hlt (Nat.pow_le_pow_right (by decide) (by rwa [Nat.zero_add]))

theorem length_bytes : v.bytes.length = v.init.length + 1 := by
  rw [bytes, List.length_append]
  rfl

/-- A varint at the beginning of a list. -/
theorem exists_prefix_cons {b : UInt8} {rest : List UInt8} {P : List UInt8 → Prop} :
    (∃ w : Varint, w.bytes <+: b :: rest ∧ P w.bytes) ↔
      if b &&& 0x80 = 0 then P [b] else ∃ w : Varint, w.bytes <+: rest ∧ P (b :: w.bytes) := by
  split_ifs with hlow
  · constructor
    · rintro ⟨⟨init, last, hinit, hlast⟩, hpre, hP⟩
      cases init with
      | nil =>
        obtain ⟨rfl, -⟩ := List.cons_prefix_cons.1 hpre
        exact hP
      | cons c init =>
        obtain ⟨rfl, -⟩ := List.cons_prefix_cons.1 hpre
        exact absurd hlow (hinit _ List.mem_cons_self)
    · intro hP
      exact ⟨⟨[], b, nofun, hlow⟩, ⟨rest, rfl⟩, hP⟩
  · constructor
    · rintro ⟨⟨init, last, hinit, hlast⟩, hpre, hP⟩
      cases init with
      | nil =>
        obtain ⟨rfl, -⟩ := List.cons_prefix_cons.1 hpre
        exact absurd hlast hlow
      | cons c init =>
        obtain ⟨rfl, hrest⟩ := List.cons_prefix_cons.1 hpre
        exact ⟨⟨init, last, fun x hx => hinit x (List.mem_cons_of_mem _ hx), hlast⟩, hrest, hP⟩
    · rintro ⟨⟨init, last, hinit, hlast⟩, hpre, hP⟩
      refine ⟨⟨b :: init, last, ?_, hlast⟩, List.cons_prefix_cons.2 ⟨rfl, hpre⟩, hP⟩
      intro x hx
      rcases List.mem_cons.1 hx with rfl | hx
      · exact hlow
      · exact hinit x hx

/-- A varint ends where it ends. -/
theorem bytes_inj {v v' : Varint} {s s' : List UInt8} (h : v.bytes ++ s = v'.bytes ++ s') :
    v = v' ∧ s = s' := by
  obtain ⟨init, last, hi, hl⟩ := v
  obtain ⟨init', last', hi', hl'⟩ := v'
  simp only [bytes, List.append_assoc, List.singleton_append] at h
  induction init generalizing init' with
  | nil =>
    cases init' with
    | nil =>
      obtain ⟨rfl, rfl⟩ := List.cons.inj h
      exact ⟨rfl, rfl⟩
    | cons b init' =>
      obtain ⟨rfl, -⟩ := List.cons.inj h
      exact absurd hl (hi' _ List.mem_cons_self)
  | cons b init ih =>
    cases init' with
    | nil =>
      obtain ⟨rfl, -⟩ := List.cons.inj h
      exact absurd hl' (hi _ List.mem_cons_self)
    | cons b' init' =>
      obtain ⟨rfl, htail⟩ := List.cons.inj h
      obtain ⟨heq, hs⟩ := ih (fun x hx => hi x (List.mem_cons_of_mem _ hx)) init'
        (fun x hx => hi' x (List.mem_cons_of_mem _ hx)) htail
      obtain ⟨rfl, rfl⟩ := Varint.mk.inj heq
      exact ⟨rfl, hs⟩

end Varint

/-- The head of an instruction with the opcode `op`. -/
structure PackedHead (op : UInt8) where
  byte : UInt8
  long : Option Varint
  op_eq : byte >>> 5 = op
  long_iff : long.isSome = true ↔ byte &&& 0x1F = 0

namespace PackedHead
variable {op : UInt8} (h : PackedHead op)

def bytes : List UInt8 := h.byte :: (h.long.elim [] Varint.bytes)

/-- The count: in the low five bits, or in the varint. -/
def value : ℕ := h.long.elim (h.byte &&& 0x1F).toNat Varint.value

theorem value_lt (hshort : ∀ v ∈ h.long.toList, v.Short) : h.value < 128 ^ 5 := by
  obtain ⟨byte, long, hop, hlong⟩ := h
  cases long with
  | none =>
    rw [value, Option.elim_none, UInt8.toNat_and]
    exact lt_of_le_of_lt Nat.and_le_right (by decide)
  | some v => exact (hshort v (by simp)).value_lt

theorem bytes_inj {h h' : PackedHead op} {s s' : List UInt8} (heq : h.bytes ++ s = h'.bytes ++ s') :
    h = h' ∧ s = s' := by
  obtain ⟨byte, long, hop, hlong⟩ := h
  obtain ⟨byte', long', hop', hlong'⟩ := h'
  obtain ⟨rfl, htail⟩ := List.cons.inj heq
  rcases long with _ | v <;> rcases long' with _ | v'
  · exact ⟨rfl, htail⟩
  · exact absurd (hlong.2 (hlong'.1 rfl)) nofun
  · exact absurd (hlong'.2 (hlong.1 rfl)) nofun
  · obtain ⟨rfl, hs⟩ := Varint.bytes_inj htail
    exact ⟨rfl, hs⟩

end PackedHead

/-! ## Instructions -/

/-- An instruction, with the lengths of its blocks. -/
inductive PackedInstr where
  /-- `value` zeros -/
  | zero (head : PackedHead 0)
  /-- a block of `value` bytes -/
  | block (head : PackedHead 1) (data : List UInt8) (hdata : data.length = head.value)
  /-- a block of `value` bytes, `count + 1` times -/
  | repeat_ (head : PackedHead 2) (count : Varint) (data : List UInt8)
    (hdata : data.length = head.value)
  /-- a common block of `value` bytes, and after each repetition of it but the last
      a custom block of its own -/
  | repeatBlock (head : PackedHead 3) (customSize repeatCount : Varint) (common : List UInt8)
    (customs : List (List UInt8)) (hcommon : common.length = head.value)
    (hsize : ∀ c ∈ customs, c.length = customSize.value)
    (hcount : customs.length = repeatCount.value)
  /-- the same, with `value` zeros for the common block -/
  | repeatZero (head : PackedHead 4) (customSize repeatCount : Varint)
    (customs : List (List UInt8)) (hsize : ∀ c ∈ customs, c.length = customSize.value)
    (hcount : customs.length = repeatCount.value)

namespace PackedInstr

/-- The bytes of an instruction. -/
def encode : PackedInstr → List UInt8
  | zero head => head.bytes
  | block head data _ => head.bytes ++ data
  | repeat_ head count data _ => head.bytes ++ (count.bytes ++ data)
  | repeatBlock head customSize repeatCount common customs _ _ _ =>
    head.bytes ++ (customSize.bytes ++ (repeatCount.bytes ++ (common ++ customs.flatten)))
  | repeatZero head customSize repeatCount customs _ _ =>
    head.bytes ++ (customSize.bytes ++ (repeatCount.bytes ++ customs.flatten))

/-- A common block before each custom block and at the end. -/
def interleave (common : List UInt8) (customs : List (List UInt8)) : List UInt8 :=
  customs.flatMap (common ++ ·) ++ common

/-- The bytes that an instruction stands for. -/
def expand : PackedInstr → List UInt8
  | zero head => List.replicate head.value 0
  | block _ data _ => data
  | repeat_ _ count data _ => (List.replicate (count.value + 1) data).flatten
  | repeatBlock _ _ _ common customs _ _ _ => interleave common customs
  | repeatZero head _ _ customs _ _ => interleave (List.replicate head.value 0) customs

/-- Its varints. -/
def varints : PackedInstr → List Varint
  | zero head => head.long.toList
  | block head _ _ => head.long.toList
  | repeat_ head count _ _ => head.long.toList ++ [count]
  | repeatBlock head customSize repeatCount _ _ _ _ _ =>
    head.long.toList ++ [customSize, repeatCount]
  | repeatZero head customSize repeatCount _ _ _ => head.long.toList ++ [customSize, repeatCount]

/-- No varint is longer than five bytes. -/
def Short (i : PackedInstr) : Prop := ∀ v ∈ i.varints, v.Short

theorem short_repeat {head : PackedHead 2} {count : Varint} {data : List UInt8}
    {hdata : data.length = head.value} :
    (repeat_ head count data hdata).Short ↔ (∀ v ∈ head.long.toList, v.Short) ∧ count.Short := by
  simp [Short, varints, or_imp, forall_and]

theorem short_repeatBlock {head : PackedHead 3} {customSize repeatCount : Varint}
    {common : List UInt8} {customs : List (List UInt8)} {hcommon : common.length = head.value}
    {hsize : ∀ c ∈ customs, c.length = customSize.value}
    {hcount : customs.length = repeatCount.value} :
    (repeatBlock head customSize repeatCount common customs hcommon hsize hcount).Short ↔
      (∀ v ∈ head.long.toList, v.Short) ∧ customSize.Short ∧ repeatCount.Short := by
  simp [Short, varints, or_imp, forall_and]

theorem short_repeatZero {head : PackedHead 4} {customSize repeatCount : Varint}
    {customs : List (List UInt8)} {hsize : ∀ c ∈ customs, c.length = customSize.value}
    {hcount : customs.length = repeatCount.value} :
    (repeatZero head customSize repeatCount customs hsize hcount).Short ↔
      (∀ v ∈ head.long.toList, v.Short) ∧ customSize.Short ∧ repeatCount.Short := by
  simp [Short, varints, or_imp, forall_and]

/-- The opcode. -/
def op : PackedInstr → UInt8
  | zero _ => 0
  | block .. => 1
  | repeat_ .. => 2
  | repeatBlock .. => 3
  | repeatZero .. => 4

/-- An instruction begins with its opcode. -/
theorem encode_eq_cons (i : PackedInstr) : ∃ b rest, i.encode = b :: rest ∧ b >>> 5 = i.op := by
  cases i with
  | zero head => exact ⟨_, _, rfl, head.op_eq⟩
  | block head => exact ⟨_, _, rfl, head.op_eq⟩
  | repeat_ head => exact ⟨_, _, rfl, head.op_eq⟩
  | repeatBlock head => exact ⟨_, _, rfl, head.op_eq⟩
  | repeatZero head => exact ⟨_, _, rfl, head.op_eq⟩

theorem encode_ne_nil (i : PackedInstr) : i.encode ≠ [] := by
  obtain ⟨b, rest, h, -⟩ := i.encode_eq_cons
  rw [h]
  exact List.cons_ne_nil b rest

/-- Blocks of one size, as many on both sides. -/
theorem flatten_inj {n : ℕ} {l l' : List (List UInt8)} {s s' : List UInt8}
    (hl : ∀ c ∈ l, c.length = n) (hl' : ∀ c ∈ l', c.length = n) (hlen : l.length = l'.length)
    (h : l.flatten ++ s = l'.flatten ++ s') : l = l' ∧ s = s' := by
  induction l generalizing l' with
  | nil =>
    obtain rfl := List.eq_nil_of_length_eq_zero hlen.symm
    exact ⟨rfl, h⟩
  | cons c l ih =>
    cases l' with
    | nil => simp at hlen
    | cons c' l' =>
      rw [List.flatten_cons, List.flatten_cons, List.append_assoc, List.append_assoc] at h
      have hc : c.length = c'.length :=
        (hl c List.mem_cons_self).trans (hl' c' List.mem_cons_self).symm
      obtain ⟨rfl, hrest⟩ := List.append_inj h hc
      obtain ⟨rfl, hs⟩ := ih (fun x hx => hl x (List.mem_cons_of_mem _ hx))
        (fun x hx => hl' x (List.mem_cons_of_mem _ hx)) (Nat.succ.inj hlen) hrest
      exact ⟨rfl, hs⟩

/-- **Instructions can be told apart.** -/
theorem encode_inj {i i' : PackedInstr} {s s' : List UInt8} (h : i.encode ++ s = i'.encode ++ s') :
    i = i' ∧ s = s' := by
  have hop : i.op = i'.op := by
    obtain ⟨b, rest, hb, hop⟩ := i.encode_eq_cons
    obtain ⟨b', rest', hb', hop'⟩ := i'.encode_eq_cons
    rw [hb, hb'] at h
    obtain ⟨rfl, -⟩ := List.cons.inj h
    exact hop.symm.trans hop'
  cases i with
  | zero head =>
    cases i' with
    | zero head' =>
      obtain ⟨rfl, hs⟩ := PackedHead.bytes_inj h
      exact ⟨rfl, hs⟩
    | _ => simp [op] at hop
  | block head data hdata =>
    cases i' with
    | block head' data' hdata' =>
      simp only [encode, List.append_assoc] at h
      obtain ⟨rfl, hdatas⟩ := PackedHead.bytes_inj h
      obtain ⟨rfl, hs⟩ := List.append_inj hdatas (hdata.trans hdata'.symm)
      exact ⟨rfl, hs⟩
    | _ => simp [op] at hop
  | repeat_ head count data hdata =>
    cases i' with
    | repeat_ head' count' data' hdata' =>
      simp only [encode, List.append_assoc] at h
      obtain ⟨rfl, hcounts⟩ := PackedHead.bytes_inj h
      obtain ⟨rfl, hdatas⟩ := Varint.bytes_inj hcounts
      obtain ⟨rfl, hs⟩ := List.append_inj hdatas (hdata.trans hdata'.symm)
      exact ⟨rfl, hs⟩
    | _ => simp [op] at hop
  | repeatBlock head customSize repeatCount common customs hcommon hsize hcount =>
    cases i' with
    | repeatBlock head' customSize' repeatCount' common' customs' hcommon' hsize' hcount' =>
      simp only [encode, List.append_assoc] at h
      obtain ⟨rfl, hsizes⟩ := PackedHead.bytes_inj h
      obtain ⟨rfl, hcounts⟩ := Varint.bytes_inj hsizes
      obtain ⟨rfl, hcommons⟩ := Varint.bytes_inj hcounts
      obtain ⟨rfl, hblocks⟩ := List.append_inj hcommons (hcommon.trans hcommon'.symm)
      obtain ⟨rfl, hs⟩ := flatten_inj hsize hsize' (hcount.trans hcount'.symm) hblocks
      exact ⟨rfl, hs⟩
    | _ => simp [op] at hop
  | repeatZero head customSize repeatCount customs hsize hcount =>
    cases i' with
    | repeatZero head' customSize' repeatCount' customs' hsize' hcount' =>
      simp only [encode, List.append_assoc] at h
      obtain ⟨rfl, hsizes⟩ := PackedHead.bytes_inj h
      obtain ⟨rfl, hcounts⟩ := Varint.bytes_inj hsizes
      obtain ⟨rfl, hblocks⟩ := Varint.bytes_inj hcounts
      obtain ⟨rfl, hs⟩ := flatten_inj hsize hsize' (hcount.trans hcount'.symm) hblocks
      exact ⟨rfl, hs⟩
    | _ => simp [op] at hop

end PackedInstr

/-! ## Streams -/

/-- Instructions that complete `outLen` bytes when `produced` are there already: none
    starts when there are `outLen`, and there are in the end. -/
def PackedStream (outLen : ℕ) : ℕ → List PackedInstr → Prop
  | produced, [] => produced = outLen
  | produced, i :: l => produced < outLen ∧ PackedStream outLen (produced + i.expand.length) l

theorem PackedStream.length_eq {outLen produced : ℕ} {l : List PackedInstr}
    (h : PackedStream outLen produced l) :
    produced + (l.flatMap PackedInstr.expand).length = outLen := by
  induction l generalizing produced with
  | nil => exact h
  | cons i l ih =>
    rw [List.flatMap_cons, List.length_append, ← Nat.add_assoc]
    exact ih h.2

/-- In other words: the expansions make up `outLen` bytes, and every instruction starts
    before there are so many. -/
theorem packedStream_iff {outLen produced : ℕ} {l : List PackedInstr} :
    PackedStream outLen produced l ↔
      produced + (l.flatMap PackedInstr.expand).length = outLen ∧
        ∀ l₁ i l₂, l = l₁ ++ i :: l₂ →
          produced + (l₁.flatMap PackedInstr.expand).length < outLen := by
  induction l generalizing produced with
  | nil =>
    constructor
    · intro h
      exact ⟨h, by simp⟩
    · exact And.left
  | cons i l ih =>
    rw [PackedStream, ih, List.flatMap_cons, List.length_append, ← Nat.add_assoc]
    constructor
    · rintro ⟨hstart, hlen, hrest⟩
      refine ⟨hlen, ?_⟩
      intro l₁ i' l₂ heq
      cases l₁ with
      | nil => exact hstart
      | cons i₁ l₁ =>
        obtain ⟨rfl, rfl⟩ := List.cons.inj heq
        rw [List.flatMap_cons, List.length_append, ← Nat.add_assoc]
        exact hrest l₁ i' l₂ rfl
    · rintro ⟨hlen, hall⟩
      refine ⟨hall [] i l rfl, hlen, ?_⟩
      rintro l₁ i' l₂ rfl
      have h := hall (i :: l₁) i' l₂ rfl
      rwa [List.flatMap_cons, List.length_append, ← Nat.add_assoc] at h

/-- A byte string is one stream at most. -/
theorem PackedStream.unique {l l' : List PackedInstr}
    (h : l.flatMap PackedInstr.encode = l'.flatMap PackedInstr.encode) : l = l' := by
  induction l generalizing l' with
  | nil =>
    cases l' with
    | nil => rfl
    | cons i l' => exact absurd (List.append_eq_nil_iff.1 h.symm).1 i.encode_ne_nil
  | cons i l ih =>
    cases l' with
    | nil => exact absurd (List.append_eq_nil_iff.1 h).1 i.encode_ne_nil
    | cons i' l' =>
      rw [List.flatMap_cons, List.flatMap_cons] at h
      obtain ⟨rfl, hrest⟩ := PackedInstr.encode_inj h
      rw [ih hrest]

/-- The instructions of a packed stream for `outLen` bytes, and what it unpacks
    to; varints may be of any length. -/
def UnpacksBy (l : List PackedInstr) (data : List UInt8) (outLen : ℕ) (v : List UInt8) : Prop :=
  data = l.flatMap PackedInstr.encode ∧ v = l.flatMap PackedInstr.expand ∧ PackedStream outLen 0 l

/-- **The format**: `data` unpacks to the `outLen` bytes `v`. -/
def Unpacks (data : List UInt8) (outLen : ℕ) (v : List UInt8) : Prop :=
  ∃ l, UnpacksBy l data outLen v ∧ ∀ i ∈ l, i.Short

/-- The empty stream is for no bytes. -/
theorem not_unpacks_nil {outLen : ℕ} (h : outLen ≠ 0) {v : List UInt8} : ¬ Unpacks [] outLen v := by
  rintro ⟨l, ⟨hdata, -, hl⟩, -⟩
  cases l with
  | nil => exact h hl.symm
  | cons i l => exact i.encode_ne_nil (List.append_eq_nil_iff.1 hdata.symm).1

end Usbmidi9
