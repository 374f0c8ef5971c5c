/-
  USBMIDI9 — the decompressor unpacks exactly the streams of the format.

  For each function of `Unpack` a lemma says when it succeeds: `varint` on a varint
  of at most five bytes, `take` when there are so many bytes left, an opcode on an
  instruction whose expansion fits (`unpackInstr_eq_ok`), and the loop on the rest
  of a stream (`unpackLoop_eq_ok`).
-/
import Usbmidi9.Pef.Unpack
import Usbmidi9.Pef.Packed

namespace Usbmidi9

open Outcome

/-! ## Successful reads -/

theorem append_prefix_drop {a b l : List UInt8} {n : ℕ} :
    a ++ b <+: l.drop n ↔ a <+: l.drop n ∧ b <+: l.drop (n + a.length) := by
  constructor
  · rintro ⟨t, ht⟩
    rw [List.append_assoc] at ht
    refine ⟨⟨_, ht⟩, t, ?_⟩
    rw [← List.drop_drop, ← ht, List.drop_left]
  · rintro ⟨⟨t, ht⟩, t', ht'⟩
    rw [← List.drop_drop, ← ht, List.drop_left] at ht'
    exact ⟨t', by rw [List.append_assoc, ht', ht]⟩

theorem add_length_add_length {a b : List UInt8} {n : ℕ} :
    n + a.length + b.length = n + (a ++ b).length := by
  rw [List.length_append, Nat.add_assoc]

/-- A prefix of a drop ends inside the list. -/
theorem le_of_prefix_drop {a l : List UInt8} {n : ℕ} (hn : n ≤ l.length) (h : a <+: l.drop n) :
    n + a.length ≤ l.length := by
  have hle := h.length_le
  rw [List.length_drop] at hle
  omega

theorem cons_prefix_drop {b : UInt8} {a l : List UInt8} {n : ℕ} :
    b :: a <+: l.drop n ↔ l[n]? = some b ∧ a <+: l.drop (n + 1) := by
  rw [← List.singleton_append, append_prefix_drop, List.length_singleton]
  refine and_congr_left fun _ => ?_
  constructor
  · rintro ⟨t, ht⟩
    rw [← List.head?_drop, ← ht]
    rfl
  · intro h
    obtain ⟨hlt, rfl⟩ := List.getElem?_eq_some_iff.1 h
    exact ⟨l.drop (n + 1), (List.drop_eq_getElem_cons hlt).symm⟩

section
variable {data : List UInt8} (hlen : data.length ≤ isizeMax)
include hlen

/-- `take` returns the next `n` bytes. -/
theorem take_eq_ok {pos n : ℕ} {what : String} (hpos : pos ≤ data.length) {b : List UInt8} {p : ℕ} :
    take data pos n what = .ok (b, p) ↔ b <+: data.drop pos ∧ b.length = n ∧ p = pos + n := by
  unfold take
  have hfits : (∀ e ∈ checkedAdd pos n, data.length < e) ↔ data.length < pos + n := by
    unfold checkedAdd
    split_ifs with h
    · simp
    · simp only [Option.mem_def, reduceCtorEq, IsEmpty.forall_iff, implies_true, true_iff]
      simp only [isizeMax, wordSize] at hlen h
      omega
  simp only [hfits]
  split_ifs with hlt
  · simp only [false_iff, not_and]
    rintro hpre rfl
    have hle := le_of_prefix_drop hpos hpre
    omega
  · rw [word_eq_of_le (by omega), ok_bind, slice_eq (by omega) (by omega), ok_bind, ok.injEq,
      Prod.mk.injEq, List.drop_take, Nat.add_sub_cancel_left]
    constructor
    · rintro ⟨rfl, rfl⟩
      refine ⟨List.take_prefix _ _, ?_, rfl⟩
      rw [List.length_take, List.length_drop]
      omega
    · rintro ⟨hpre, rfl, rfl⟩
      exact ⟨(List.prefix_iff_eq_take.1 hpre).symm, rfl⟩

/-- The loop of `varint` reads the rest of a varint. -/
theorem varintLoop_eq_ok {fuel pos v count : ℕ} (hcount : fuel + count = 5)
    (hv : v < 128 ^ count) {r p : ℕ} :
    varintLoop data fuel pos v count = .ok (r, p) ↔
      ∃ w : Varint, w.bytes <+: data.drop pos ∧ w.bytes.length ≤ fuel ∧
        p = pos + w.bytes.length ∧ r = w.bytes.foldl Varint.push v := by
  induction fuel generalizing pos v count with
  | zero =>
    simp only [varintLoop, reduceCtorEq, false_iff, not_exists, not_and]
    intro w _ hw
    rw [w.length_bytes] at hw
    omega
  | succ fuel ih =>
    unfold varintLoop
    by_cases hend : data.length ≤ pos
    · rw [if_pos hend]
      simp only [reduceCtorEq, false_iff, not_exists, not_and]
      intro w hpre
      rw [List.drop_eq_nil_of_le hend, List.prefix_nil] at hpre
      have hpos := w.length_bytes
      rw [hpre] at hpos
      simp at hpos
    have hlt : pos < data.length := not_le.1 hend
    have hget : data[pos]? = some data[pos] := List.getElem?_eq_getElem hlt
    have hdrop := List.drop_eq_getElem_cons hlt
    generalize data[pos] = b at hget hdrop
    have hnext : pos + 1 ≤ isizeMax := hlt.trans_le hlen
    have hb : (b &&& 0x7F).toNat < 128 := by
      rw [UInt8.toNat_and]
      exact lt_of_le_of_lt Nat.and_le_right (by decide)
    have hpow : 128 ^ count ≤ 128 ^ 4 := Nat.pow_le_pow_right (by decide) (by omega)
    -- five groups of seven bits fit a word
    have hchecked : ((checkedMul v 128).bind fun x => checkedAdd x (b &&& 0x7F).toNat) =
        some (Varint.push v b) := by
      have h1 : v * 128 < wordSize := by simp only [wordSize]; omega
      have h2 : v * 128 + (b &&& 0x7F).toNat < wordSize := by simp only [wordSize]; omega
      rw [checkedMul, if_pos h1, Option.bind_some, checkedAdd, if_pos h2]
      rfl
    rw [if_neg hend, get_eq_ok.2 hget, ok_bind, word_eq_of_le hnext, ok_bind, hchecked]
    simp only [okOr, ok_bind]
    rw [hdrop, Varint.exists_prefix_cons (P := fun l =>
      l.length ≤ fuel + 1 ∧ p = pos + l.length ∧ r = l.foldl Varint.push v)]
    split_ifs with hlow hlong
    · simp [eq_comm, and_comm]
    · simp only [false_iff, not_exists, not_and]
      intro w _ hlen
      rw [List.length_cons, w.length_bytes] at hlen
      omega
    · rw [ih (by omega) (Varint.push_lt hv b)]
      simp only [List.length_cons, List.foldl_cons, Nat.add_le_add_iff_right, Nat.add_assoc,
        Nat.add_comm 1]

/-- **`varint`** reads a varint of at most five bytes. -/
theorem varint_eq_ok {pos r p : ℕ} :
    varint data pos = .ok (r, p) ↔
      ∃ w : Varint, w.Short ∧ w.bytes <+: data.drop pos ∧ p = pos + w.bytes.length ∧
        r = w.value := by
  rw [varint, varintLoop_eq_ok hlen rfl (by decide)]
  exact exists_congr fun w => and_left_comm

omit hlen in
/-- The two counts of opcodes 3 and 4, read by `rd`, which reads the varints with `Q`. -/
theorem counts_eq_ok {ε β : Type} {rd : ℕ → Outcome ε (ℕ × ℕ)} {Q : Varint → Prop}
    (hrd : ∀ {pos r p}, rd pos = .ok (r, p) ↔
      ∃ w : Varint, Q w ∧ w.bytes <+: data.drop pos ∧ p = pos + w.bytes.length ∧ r = w.value)
    {g : ℕ × ℕ → ℕ × ℕ → Outcome ε β} {pos : ℕ} {b : β} :
    (rd pos >>= fun s => rd s.2 >>= g s) = .ok b ↔
      ∃ ws wc : Varint, Q ws ∧ Q wc ∧ ws.bytes ++ wc.bytes <+: data.drop pos ∧
        g (ws.value, pos + ws.bytes.length) (wc.value, pos + (ws.bytes ++ wc.bytes).length) =
          .ok b := by
  simp only [bind_eq_ok, Prod.exists, hrd]
  constructor
  · rintro ⟨_, _, ⟨ws, hws, hpre, rfl, rfl⟩, _, _, ⟨wc, hwc, hpre', rfl, rfl⟩, hg⟩
    refine ⟨ws, wc, hws, hwc, append_prefix_drop.2 ⟨hpre, hpre'⟩, ?_⟩
    rwa [← add_length_add_length]
  · rintro ⟨ws, wc, hws, hwc, hpres, hg⟩
    obtain ⟨hpre, hpre'⟩ := append_prefix_drop.1 hpres
    rw [← add_length_add_length] at hg
    exact ⟨_, _, ⟨ws, hws, hpre, rfl, rfl⟩, _, _, ⟨wc, hwc, hpre', rfl, rfl⟩, hg⟩

omit hlen in
/-- The count of an instruction: in its first byte, or read by `rd`. -/
theorem value_eq_ok {ε : Type} {rd : ℕ → Outcome ε (ℕ × ℕ)} {Q : Varint → Prop}
    (hrd : ∀ {pos r p}, rd pos = .ok (r, p) ↔
      ∃ w : Varint, Q w ∧ w.bytes <+: data.drop pos ∧ p = pos + w.bytes.length ∧ r = w.value)
    {b : UInt8} {pos : ℕ} (hget : data[pos]? = some b) {r p : ℕ} :
    (if b &&& 0x1F = 0 then rd (pos + 1) else .ok ((b &&& 0x1F).toNat, pos + 1)) = .ok (r, p) ↔
      ∃ h : PackedHead (b >>> 5), (∀ w ∈ h.long.toList, Q w) ∧ h.bytes <+: data.drop pos ∧
        p = pos + h.bytes.length ∧ r = h.value := by
  have hbyte : ∀ {h : PackedHead (b >>> 5)}, h.bytes <+: data.drop pos → h.byte = b := by
    intro h hpre
    obtain ⟨hfirst, -⟩ := cons_prefix_drop.1 hpre
    exact Option.some.inj (hfirst.symm.trans hget)
  split_ifs with hlow
  · rw [hrd]
    constructor
    · rintro ⟨w, hQ, hpre, rfl, rfl⟩
      refine ⟨⟨b, some w, rfl, by simp [hlow]⟩, by simpa using hQ,
        cons_prefix_drop.2 ⟨hget, hpre⟩, ?_, rfl⟩
      simp only [PackedHead.bytes, Option.elim_some, List.length_cons]
      omega
    · rintro ⟨⟨byte, long, hop, hlong⟩, hQ, hpre, rfl, rfl⟩
      obtain rfl : byte = b := hbyte hpre
      obtain ⟨-, hrest⟩ := cons_prefix_drop.1 hpre
      cases long with
      | none => exact absurd (hlong.2 hlow) nofun
      | some w =>
        refine ⟨w, hQ w (by simp), hrest, ?_, rfl⟩
        simp only [PackedHead.bytes, Option.elim_some, List.length_cons]
        omega
  · simp only [ok.injEq, Prod.mk.injEq]
    constructor
    · rintro ⟨rfl, rfl⟩
      exact ⟨⟨b, none, rfl, by simp [hlow]⟩, by simp, cons_prefix_drop.2 ⟨hget, List.nil_prefix⟩,
        rfl, rfl⟩
    · rintro ⟨⟨byte, long, hop, hlong⟩, hQ, hpre, rfl, rfl⟩
      obtain rfl : byte = b := hbyte hpre
      cases long with
      | none => exact ⟨rfl, rfl⟩
      | some w => exact absurd (hlong.1 rfl) hlow

/-- **The head of an instruction.** -/
theorem unpackHead_eq_ok {pos : ℕ} (hpos : pos < data.length) {op : UInt8} {r p : ℕ} :
    unpackHead data pos = .ok (op, r, p) ↔
      ∃ h : PackedHead op, (∀ w ∈ h.long.toList, w.Short) ∧ h.bytes <+: data.drop pos ∧
        p = pos + h.bytes.length ∧ r = h.value := by
  have hget : data[pos]? = some data[pos] := List.getElem?_eq_getElem hpos
  generalize data[pos] = b at hget
  unfold unpackHead
  rw [get_eq_ok.2 hget, ok_bind, word_eq_of_le (by omega), ok_bind]
  simp only [bind_eq_ok, Prod.exists, value_eq_ok (varint_eq_ok hlen) hget, ok.injEq,
    Prod.mk.injEq]
  constructor
  · rintro ⟨_, _, h, rfl, rfl, rfl⟩
    exact h
  · rintro ⟨h, hshort, hpre, rfl, rfl⟩
    obtain ⟨hfirst, -⟩ := cons_prefix_drop.1 hpre
    obtain rfl : b >>> 5 = op := by
      rw [Option.some.inj (hget.symm.trans hfirst)]
      exact h.op_eq
    exact ⟨_, _, ⟨h, hshort, hpre, rfl, rfl⟩, rfl, rfl, rfl⟩

/-- `body` appends `common` and the next `k` bytes. -/
def BlockStep {ε : Type} (data common : List UInt8) (k : ℕ)
    (body : List UInt8 × ℕ → Outcome ε (List UInt8 × ℕ)) : Prop :=
  ∀ ⦃out pos o p⦄, pos ≤ data.length → out.length ≤ isizeMax →
    (body (out, pos) = .ok (o, p) ↔ ∃ c, c.length = k ∧ c <+: data.drop pos ∧ p = pos + k ∧
      o = out ++ (common ++ c) ∧ o.length ≤ isizeMax)

omit hlen in
/-- Blocks before each of which the same bytes are appended. -/
theorem iterate_blocks_eq_ok {ε : Type} {body : List UInt8 × ℕ → Outcome ε (List UInt8 × ℕ)}
    {common : List UInt8} {k : ℕ} (hbody : BlockStep data common k body)
    {n : ℕ} {out o : List UInt8} {pos p : ℕ} (hpos : pos ≤ data.length)
    (hout : out.length ≤ isizeMax) :
    iterate body n (out, pos) = .ok (o, p) ↔
      ∃ customs : List (List UInt8), customs.length = n ∧ (∀ c ∈ customs, c.length = k) ∧
        customs.flatten <+: data.drop pos ∧ p = pos + customs.flatten.length ∧
        o = out ++ customs.flatMap (common ++ ·) ∧ o.length ≤ isizeMax := by
  induction n generalizing out pos with
  | zero =>
    simp only [iterate, ok.injEq, Prod.mk.injEq]
    constructor
    · rintro ⟨rfl, rfl⟩
      exact ⟨[], rfl, List.forall_mem_nil _, List.nil_prefix, rfl, (List.append_nil _).symm, hout⟩
    · rintro ⟨customs, hnil, -, -, rfl, rfl, -⟩
      obtain rfl := List.eq_nil_of_length_eq_zero hnil
      exact ⟨(List.append_nil _).symm, rfl⟩
  | succ n ih =>
    simp only [iterate, bind_eq_ok, Prod.exists, hbody hpos hout]
    constructor
    · rintro ⟨_, _, ⟨c, hc, hpre, rfl, rfl, hle⟩, hrest⟩
      have hpos' := le_of_prefix_drop hpos hpre
      rw [hc] at hpos'
      obtain ⟨customs, hn, hsize, hpres, rfl, rfl, hle'⟩ := (ih hpos' hle).1 hrest
      refine ⟨c :: customs, by rw [List.length_cons, hn], ?_, ?_, ?_, ?_, hle'⟩
      · intro x hx
        rcases List.mem_cons.1 hx with rfl | hx
        · exact hc
        · exact hsize x hx
      · rw [List.flatten_cons, append_prefix_drop, hc]
        exact ⟨hpre, hpres⟩
      · rw [List.flatten_cons, List.length_append, hc, Nat.add_assoc]
      · rw [List.flatMap_cons, List.append_assoc]
    · rintro ⟨customs, hn, hsize, hpres, rfl, rfl, hle⟩
      cases customs with
      | nil => simp at hn
      | cons c customs =>
        have hc := hsize c List.mem_cons_self
        rw [List.flatten_cons, append_prefix_drop, hc] at hpres
        have hout' : out ++ (c :: customs).flatMap (common ++ ·) =
            out ++ (common ++ c) ++ customs.flatMap (common ++ ·) := by
          simp only [List.flatMap_cons, List.append_assoc]
        rw [hout'] at hle
        have hfirst : (out ++ (common ++ c)).length ≤ isizeMax := by
          rw [List.length_append] at hle
          omega
        have hpos' := le_of_prefix_drop hpos hpres.1
        rw [hc] at hpos'
        refine ⟨_, _, ⟨c, hc, hpres.1, rfl, rfl, hfirst⟩, (ih hpos' hfirst).2 ⟨customs,
          Nat.succ.inj hn, fun x hx => hsize x (List.mem_cons_of_mem _ hx), hpres.2, ?_, hout', ?_⟩⟩
        · rw [List.flatten_cons, List.length_append, hc, Nat.add_assoc]
        · rwa [hout']

theorem unpackRepeatBlockStep_eq_ok {common : List UInt8} {k : ℕ} :
    BlockStep data common k (unpackRepeatBlockStep data common k) := by
  intro out pos o p hpos _
  simp only [unpackRepeatBlockStep, bind_eq_ok, mapErr_eq_ok, Prod.exists, take_eq_ok hlen hpos,
    extend_eq_ok, ok.injEq, Prod.mk.injEq]
  constructor
  · rintro ⟨c, _, ⟨hpre, hc, rfl⟩, _, ⟨-, rfl⟩, _, ⟨hle, rfl⟩, rfl, rfl⟩
    rw [← List.length_append] at hle
    exact ⟨c, hc, hpre, rfl, List.append_assoc .., hle⟩
  · rintro ⟨c, hc, hpre, rfl, rfl, hle⟩
    simp only [List.length_append] at hle
    refine ⟨c, _, ⟨hpre, hc, rfl⟩, _, ⟨by omega, rfl⟩, _, ⟨?_, rfl⟩, List.append_assoc .., rfl⟩
    rw [List.length_append]
    omega

theorem unpackRepeatZeroStep_eq_ok {common k : ℕ} (hcommon : common ≤ isizeMax) :
    BlockStep data (List.replicate common 0) k (unpackRepeatZeroStep data common k) := by
  intro out pos o p hpos hout
  have hword : out.length + common < wordSize := by
    simp only [isizeMax, wordSize] at hout hcommon ⊢
    omega
  simp only [unpackRepeatZeroStep, word_eq hword, ok_bind, bind_eq_ok, mapErr_eq_ok, Prod.exists,
    take_eq_ok hlen hpos, extend_eq_ok, resize_add_eq_ok hout, ok.injEq, Prod.mk.injEq]
  constructor
  · rintro ⟨_, ⟨rfl, -⟩, c, _, ⟨hpre, hc, rfl⟩, _, ⟨hle, rfl⟩, rfl, rfl⟩
    rw [← List.length_append] at hle
    exact ⟨c, hc, hpre, rfl, List.append_assoc .., hle⟩
  · rintro ⟨c, hc, hpre, rfl, rfl, hle⟩
    simp only [List.length_append] at hle
    refine ⟨_, ⟨rfl, ?_⟩, c, _, ⟨hpre, hc, rfl⟩, _, ⟨?_, rfl⟩, List.append_assoc .., rfl⟩
    · rw [List.length_append]
      omega
    · rw [List.length_append]
      omega

end

/-! ## Successful instructions -/

theorem grow_eq_ok {out : List UInt8} {outLen add : ℕ} {op : String} (hL : outLen ≤ isizeMax)
    {u : Unit} : grow out outLen add op = .ok u ↔ out.length + add ≤ outLen := by
  unfold grow saturatingAdd
  rw [ensure_eq_ok]
  simp only [isizeMax, wordSize] at hL ⊢
  omega

theorem PackedInstr.length_interleave (common : List UInt8) {customs : List (List UInt8)} {k : ℕ}
    (hsize : ∀ c ∈ customs, c.length = k) :
    (interleave common customs).length = customs.length * (common.length + k) + common.length := by
  have hmap : (customs.map fun c => (common ++ c).length) =
      customs.map fun _ => common.length + k := by
    apply List.map_congr_left
    intro c hc
    rw [List.length_append, hsize c hc]
  rw [interleave, List.length_append, List.length_flatMap, hmap, List.map_const', List.sum_replicate]
  rfl

theorem interleavedSize_eq_ok {out : List UInt8} {outLen value customSize repeatCount n : ℕ}
    {op : String} (hL : outLen ≤ isizeMax) (hvalue : value ≤ isizeMax)
    (hcustom : customSize < 128 ^ 5) :
    interleavedSize outLen out value customSize repeatCount op = .ok n ↔
      n = repeatCount * (value + customSize) + value ∧ out.length + n ≤ outLen := by
  simp only [interleavedSize, bind_eq_ok, mapErr_eq_ok, okOr_eq_ok, grow_eq_ok hL,
    Option.bind_eq_some_iff, checkedAdd_eq_some, checkedMul_eq_some, ok.injEq]
  constructor
  · rintro ⟨_, ⟨rfl, -⟩, _, ⟨_, ⟨rfl, -⟩, rfl, -⟩, -, hle, rfl⟩
    exact ⟨rfl, hle⟩
  · rintro ⟨rfl, hle⟩
    simp only [isizeMax, wordSize] at hL hvalue ⊢
    exact ⟨_, ⟨rfl, by omega⟩, _, ⟨_, ⟨rfl, by omega⟩, rfl, by omega⟩, (), hle, rfl⟩

theorem resize_final_eq_ok {value : ℕ} (hvalue : value ≤ isizeMax) {out o : List UInt8} {pos p : ℕ}
    (hout : out.length ≤ isizeMax) :
    (word (out.length + value) >>= fun n => resize out n 0 >>= fun out => .ok (out, pos) :
        Partial _) = .ok (o, p) ↔
      p = pos ∧ o = out ++ List.replicate value 0 ∧ o.length ≤ isizeMax := by
  have hword : out.length + value < wordSize := by
    simp only [isizeMax, wordSize] at hout hvalue ⊢
    omega
  simp only [word_eq hword, ok_bind, bind_eq_ok, resize_add_eq_ok hout, ok.injEq, Prod.mk.injEq]
  constructor
  · rintro ⟨_, ⟨rfl, hle⟩, rfl, rfl⟩
    exact ⟨rfl, rfl, hle⟩
  · rintro ⟨rfl, rfl, hle⟩
    exact ⟨_, ⟨rfl, hle⟩, rfl, rfl⟩

/-- Blocks before each of which the same bytes are appended, and these once more. -/
theorem blocks_eq_ok {ε : Type} {data : List UInt8}
    {body final : List UInt8 × ℕ → Outcome ε (List UInt8 × ℕ)} {common : List UInt8} {k : ℕ}
    (hbody : BlockStep data common k body)
    (hfinal : ∀ {out pos o p}, out.length ≤ isizeMax →
      (final (out, pos) = .ok (o, p) ↔ p = pos ∧ o = out ++ common ∧ o.length ≤ isizeMax))
    {m : ℕ} {out o : List UInt8} {pos p : ℕ} (hpos : pos ≤ data.length)
    (hout : out.length ≤ isizeMax) :
    iterate body m (out, pos) >>= final = .ok (o, p) ↔
      ∃ customs : List (List UInt8), customs.length = m ∧ (∀ c ∈ customs, c.length = k) ∧
        customs.flatten <+: data.drop pos ∧ p = pos + customs.flatten.length ∧
        o = out ++ PackedInstr.interleave common customs ∧ o.length ≤ isizeMax := by
  simp only [bind_eq_ok, Prod.exists]
  constructor
  · rintro ⟨_, _, hrun, hlast⟩
    obtain ⟨customs, hm, hsize, hpre, rfl, rfl, hle⟩ :=
      (iterate_blocks_eq_ok hbody hpos hout).1 hrun
    obtain ⟨rfl, rfl, hle'⟩ := (hfinal hle).1 hlast
    exact ⟨customs, hm, hsize, hpre, rfl, List.append_assoc .., hle'⟩
  · rintro ⟨customs, hm, hsize, hpre, rfl, rfl, hle⟩
    rw [PackedInstr.interleave, ← List.append_assoc] at hle
    have hle' : (out ++ customs.flatMap (common ++ ·)).length ≤ isizeMax := by
      rw [List.length_append] at hle
      omega
    refine ⟨_, _, (iterate_blocks_eq_ok hbody hpos hout).2
      ⟨customs, hm, hsize, hpre, rfl, rfl, hle'⟩, (hfinal hle').2 ⟨rfl, ?_, ?_⟩⟩
    · rw [PackedInstr.interleave, List.append_assoc]
    · rwa [PackedInstr.interleave, ← List.append_assoc]

/-- Opcodes 3 and 4 behind their counts. -/
theorem interleaved_eq_ok {data : List UInt8}
    {body final : List UInt8 × ℕ → Partial (List UInt8 × ℕ)} {common : List UInt8} {k : ℕ}
    (hbody : BlockStep data common k body)
    (hfinal : ∀ {out pos o p}, out.length ≤ isizeMax →
      (final (out, pos) = .ok (o, p) ↔ p = pos ∧ o = out ++ common ∧ o.length ≤ isizeMax))
    {m n : ℕ} (hn : n = m * (common.length + k) + common.length) {out o : List UInt8} {pos p : ℕ}
    (hpos : pos ≤ data.length) (hout : out.length ≤ isizeMax) :
    (if 0 < n then iterate body m (out, pos) >>= final else .ok (out, pos)) = .ok (o, p) ↔
      ∃ customs : List (List UInt8), customs.length = m ∧ (∀ c ∈ customs, c.length = k) ∧
        customs.flatten <+: data.drop pos ∧ p = pos + customs.flatten.length ∧
        o = out ++ PackedInstr.interleave common customs ∧ o.length ≤ isizeMax := by
  have hflatten : ∀ {customs : List (List UInt8)}, (∀ c ∈ customs, c.length = k) →
      customs.flatten.length = customs.length * k := by
    intro customs hsize
    have hmap : customs.map List.length = customs.map fun _ => k := List.map_congr_left hsize
    rw [List.length_flatten, hmap, List.map_const', List.sum_replicate]
    rfl
  split_ifs with hn0
  · exact blocks_eq_ok hbody hfinal hpos hout
  · -- nothing is emitted, and the custom blocks are empty or there are none
    have hnil : ∀ {customs : List (List UInt8)}, customs.length = m → (∀ c ∈ customs, c.length = k) →
        customs.flatten = [] ∧ PackedInstr.interleave common customs = [] := by
      intro customs hm hsize
      have hlen := PackedInstr.length_interleave common hsize
      have hmul : m * k ≤ m * (common.length + k) := Nat.mul_le_mul_left m (Nat.le_add_left k _)
      constructor
      · apply List.eq_nil_of_length_eq_zero
        rw [hflatten hsize, hm]
        omega
      · apply List.eq_nil_of_length_eq_zero
        rw [hlen, hm]
        omega
    simp only [ok.injEq, Prod.mk.injEq]
    constructor
    · rintro ⟨rfl, rfl⟩
      have hm : (List.replicate m (List.replicate k (0 : UInt8))).length = m :=
        List.length_replicate
      have hsize : ∀ c ∈ List.replicate m (List.replicate k (0 : UInt8)), c.length = k := by
        intro c hc
        rw [List.eq_of_mem_replicate hc, List.length_replicate]
      obtain ⟨hflat, hinter⟩ := hnil hm hsize
      refine ⟨_, hm, hsize, ?_, ?_, ?_, hout⟩
      · rw [hflat]
        exact List.nil_prefix
      · rw [hflat]
        rfl
      · rw [hinter, List.append_nil]
    · rintro ⟨customs, hm, hsize, -, rfl, rfl, -⟩
      obtain ⟨hflat, hinter⟩ := hnil hm hsize
      rw [hflat, hinter]
      exact ⟨(List.append_nil _).symm, rfl⟩

section
variable {data : List UInt8} (hlen : data.length ≤ isizeMax) {outLen : ℕ} (hL : outLen ≤ isizeMax)
  {out o : List UInt8} (hout : out.length ≤ outLen) {pos p : ℕ} (hpos : pos ≤ data.length)
  {value : ℕ}

include hL hout in
theorem unpackZero_eq_ok :
    unpackZero outLen out pos value = .ok (o, p) ↔
      p = pos ∧ o = out ++ List.replicate value 0 ∧ o.length ≤ outLen := by
  have hout' := hout.trans hL
  simp only [unpackZero, bind_eq_ok, mapErr_eq_ok, grow_eq_ok hL, ok.injEq, Prod.mk.injEq]
  constructor
  · rintro ⟨-, hle, n, hn, _, hr, rfl, rfl⟩
    obtain rfl := Outcome.ok.inj ((word_eq_of_le (hle.trans hL)).symm.trans hn)
    obtain ⟨rfl, -⟩ := (resize_add_eq_ok hout').1 hr
    exact ⟨rfl, rfl, by simpa using hle⟩
  · rintro ⟨rfl, rfl, hle⟩
    rw [List.length_append, List.length_replicate] at hle
    refine ⟨(), hle, _, word_eq_of_le (hle.trans hL), _, (resize_add_eq_ok hout').2 ⟨rfl, ?_⟩,
      rfl, rfl⟩
    rw [List.length_append, List.length_replicate]
    omega

include hlen hL hpos

theorem unpackBlock_eq_ok :
    unpackBlock data outLen out pos value = .ok (o, p) ↔
      ∃ b, b.length = value ∧ b <+: data.drop pos ∧ p = pos + b.length ∧ o = out ++ b ∧
        o.length ≤ outLen := by
  simp only [unpackBlock, bind_eq_ok, mapErr_eq_ok, Prod.exists, take_eq_ok hlen hpos,
    grow_eq_ok hL, extend_eq_ok, ok.injEq, Prod.mk.injEq]
  constructor
  · rintro ⟨b, _, ⟨hpre, rfl, rfl⟩, -, hle, _, ⟨-, rfl⟩, rfl, rfl⟩
    exact ⟨b, rfl, hpre, rfl, rfl, by rwa [List.length_append]⟩
  · rintro ⟨b, rfl, hpre, rfl, rfl, hle⟩
    rw [List.length_append] at hle
    exact ⟨b, _, ⟨hpre, rfl, rfl⟩, (), hle, _, ⟨by omega, rfl⟩, rfl, rfl⟩

include hout

theorem unpackRepeat_eq_ok :
    unpackRepeat data outLen out pos value = .ok (o, p) ↔
      ∃ (w : Varint) (b : List UInt8), w.Short ∧ b.length = value ∧
        w.bytes ++ b <+: data.drop pos ∧ p = pos + (w.bytes ++ b).length ∧
        o = out ++ (List.replicate (w.value + 1) b).flatten ∧ o.length ≤ outLen := by
  have hout' := hout.trans hL
  have hsize : ∀ (w : Varint) (b : List UInt8),
      ((List.replicate (w.value + 1) b).flatten).length = (w.value + 1) * b.length := by
    intro w b
    rw [List.length_flatten, List.map_replicate, List.sum_replicate]
    rfl
  unfold unpackRepeat
  simp only [bind_eq_ok, mapErr_eq_ok, Prod.exists, varint_eq_ok hlen]
  constructor
  · rintro ⟨_, _, ⟨w, hw, hpre, rfl, rfl⟩, h⟩
    have hpos' := le_of_prefix_drop hpos hpre
    simp only [take_eq_ok hlen hpos', okOr_eq_ok, grow_eq_ok hL, Option.bind_eq_some_iff,
      checkedAdd_eq_some, checkedMul_eq_some] at h
    obtain ⟨b, _, ⟨hpre', hb, rfl⟩, n, ⟨_, ⟨rfl, -⟩, hn, -⟩, -, hle, h⟩ := h
    have hpres : w.bytes ++ b <+: data.drop pos := append_prefix_drop.2 ⟨hpre, hpre'⟩
    have hp : pos + w.bytes.length + value = pos + (w.bytes ++ b).length := by
      rw [← hb, add_length_add_length]
    rw [← hsize w b] at hn
    rw [← hn, ← List.length_append] at hle
    split_ifs at h with hn0
    · simp only [bind_eq_ok, iterate_extend_eq_ok extend_eq_ok hout', ok.injEq, Prod.mk.injEq] at h
      obtain ⟨_, ⟨rfl, -⟩, rfl, rfl⟩ := h
      exact ⟨w, b, hw, hb, hpres, hp, rfl, hle⟩
    · simp only [ok.injEq, Prod.mk.injEq] at h
      obtain ⟨rfl, rfl⟩ := h
      have hnil : (List.replicate (w.value + 1) b).flatten = [] :=
        List.eq_nil_of_length_eq_zero (by omega)
      refine ⟨w, b, hw, hb, hpres, hp, ?_, hout⟩
      rw [hnil, List.append_nil]
  · rintro ⟨w, b, hw, rfl, hpres, rfl, rfl, hle⟩
    obtain ⟨hpre, hpre'⟩ := append_prefix_drop.1 hpres
    have hpos' := le_of_prefix_drop hpos hpre
    rw [List.length_append, hsize] at hle
    have hword : (w.value + 1) * b.length < wordSize := by
      simp only [isizeMax, wordSize] at hL ⊢
      omega
    refine ⟨_, _, ⟨w, hw, hpre, rfl, rfl⟩, ?_⟩
    simp only [take_eq_ok hlen hpos', okOr_eq_ok, grow_eq_ok hL, Option.bind_eq_some_iff,
      checkedAdd_eq_some, checkedMul_eq_some]
    have hcount : w.value + 1 < wordSize := by
      have hvalue := hw.value_lt
      simp only [wordSize]
      omega
    refine ⟨b, _, ⟨hpre', rfl, rfl⟩, _, ⟨_, ⟨rfl, hcount⟩, rfl, hword⟩, (), hle, ?_⟩
    split_ifs with hn0
    · simp only [bind_eq_ok, iterate_extend_eq_ok extend_eq_ok hout', ok.injEq, Prod.mk.injEq]
      refine ⟨_, ⟨rfl, ?_⟩, rfl, by rw [List.length_append, Nat.add_assoc]⟩
      rw [List.length_append, hsize]
      omega
    · have hnil : (List.replicate (w.value + 1) b).flatten = [] :=
        List.eq_nil_of_length_eq_zero (by rw [hsize]; omega)
      rw [hnil, List.append_nil, List.length_append, Nat.add_assoc]

theorem unpackRepeatBlock_eq_ok :
    unpackRepeatBlock data outLen out pos value = .ok (o, p) ↔
      ∃ (ws wc : Varint) (common : List UInt8) (customs : List (List UInt8)),
        ws.Short ∧ wc.Short ∧ common.length = value ∧ (∀ c ∈ customs, c.length = ws.value) ∧
        customs.length = wc.value ∧
        ws.bytes ++ (wc.bytes ++ (common ++ customs.flatten)) <+: data.drop pos ∧
        p = pos + (ws.bytes ++ (wc.bytes ++ (common ++ customs.flatten))).length ∧
        o = out ++ PackedInstr.interleave common customs ∧ o.length ≤ outLen := by
  have hout' := hout.trans hL
  unfold unpackRepeatBlock
  rw [counts_eq_ok fun {_ _ _} => mapErr_eq_ok.trans (varint_eq_ok hlen)]
  constructor
  · rintro ⟨ws, wc, hws, hwc, hpre, h⟩
    have hpos' := le_of_prefix_drop hpos hpre
    rw [bind_eq_ok] at h
    obtain ⟨⟨common, _⟩, htake, h⟩ := h
    obtain ⟨hpre', rfl, rfl⟩ := (take_eq_ok hlen hpos').1 (mapErr_eq_ok.1 htake)
    have hpos'' := le_of_prefix_drop hpos' hpre'
    rw [bind_eq_ok] at h
    obtain ⟨n, hn, h⟩ := h
    obtain ⟨hn, hle⟩ := (interleavedSize_eq_ok hL (by omega) hws.value_lt).1 hn
    obtain ⟨customs, hcount, hsize, hpre'', rfl, rfl, -⟩ := (interleaved_eq_ok
      (unpackRepeatBlockStep_eq_ok hlen) (fun _ => extended_eq_ok extend_eq_ok) hn hpos'' hout').1 h
    have hlength := PackedInstr.length_interleave common hsize
    refine ⟨ws, wc, common, customs, hws, hwc, rfl, hsize, hcount, ?_, ?_, rfl, ?_⟩
    · rw [← List.append_assoc]
      exact append_prefix_drop.2 ⟨hpre, append_prefix_drop.2 ⟨hpre', hpre''⟩⟩
    · simp only [List.length_append, Nat.add_assoc]
    · rw [List.length_append, hlength, hcount, ← hn]
      exact hle
  · rintro ⟨ws, wc, common, customs, hws, hwc, rfl, hsize, hcount, hpre, rfl, rfl, hle⟩
    rw [← List.append_assoc] at hpre
    obtain ⟨hpre, hpre'⟩ := append_prefix_drop.1 hpre
    obtain ⟨hpre', hpre''⟩ := append_prefix_drop.1 hpre'
    have hpos' := le_of_prefix_drop hpos hpre
    have hpos'' := le_of_prefix_drop hpos' hpre'
    have hlength := PackedInstr.length_interleave common hsize
    rw [List.length_append, hlength, hcount] at hle
    refine ⟨ws, wc, hws, hwc, hpre, ?_⟩
    rw [bind_eq_ok]
    refine ⟨_, mapErr_eq_ok.2 ((take_eq_ok hlen hpos').2 ⟨hpre', rfl, rfl⟩), ?_⟩
    rw [bind_eq_ok]
    refine ⟨_, (interleavedSize_eq_ok hL (by omega) hws.value_lt).2 ⟨rfl, hle⟩, ?_⟩
    refine (interleaved_eq_ok (unpackRepeatBlockStep_eq_ok hlen) (fun _ => extended_eq_ok extend_eq_ok) rfl
      hpos'' hout').2 ⟨customs, hcount, hsize, hpre'', ?_, rfl, ?_⟩
    · simp only [List.length_append, Nat.add_assoc]
    · rw [List.length_append, hlength, hcount]
      omega

theorem unpackRepeatZero_eq_ok (hvalue : value < 128 ^ 5) :
    unpackRepeatZero data outLen out pos value = .ok (o, p) ↔
      ∃ (ws wc : Varint) (customs : List (List UInt8)),
        ws.Short ∧ wc.Short ∧ (∀ c ∈ customs, c.length = ws.value) ∧ customs.length = wc.value ∧
        ws.bytes ++ (wc.bytes ++ customs.flatten) <+: data.drop pos ∧
        p = pos + (ws.bytes ++ (wc.bytes ++ customs.flatten)).length ∧
        o = out ++ PackedInstr.interleave (List.replicate value 0) customs ∧
        o.length ≤ outLen := by
  have hout' := hout.trans hL
  have hvalue' : value ≤ isizeMax := by
    simp only [isizeMax]
    omega
  have hn : ∀ {k m : ℕ}, m * (value + k) + value =
      m * ((List.replicate value (0 : UInt8)).length + k) +
        (List.replicate value (0 : UInt8)).length := by
    intro k m
    rw [List.length_replicate]
  unfold unpackRepeatZero
  rw [counts_eq_ok fun {_ _ _} => mapErr_eq_ok.trans (varint_eq_ok hlen)]
  constructor
  · rintro ⟨ws, wc, hws, hwc, hpre, h⟩
    have hpos' := le_of_prefix_drop hpos hpre
    rw [bind_eq_ok] at h
    obtain ⟨n, hsizes, h⟩ := h
    obtain ⟨rfl, hle⟩ := (interleavedSize_eq_ok hL hvalue' hws.value_lt).1 hsizes
    obtain ⟨customs, hcount, hsize, hpre', rfl, rfl, -⟩ := (interleaved_eq_ok
      (unpackRepeatZeroStep_eq_ok hlen hvalue') (resize_final_eq_ok hvalue') hn hpos' hout').1 h
    have hlength := PackedInstr.length_interleave (List.replicate value 0) hsize
    refine ⟨ws, wc, customs, hws, hwc, hsize, hcount, ?_, ?_, rfl, ?_⟩
    · rw [← List.append_assoc]
      exact append_prefix_drop.2 ⟨hpre, hpre'⟩
    · simp only [List.length_append, Nat.add_assoc]
    · rw [List.length_append, hlength, hcount, ← hn]
      exact hle
  · rintro ⟨ws, wc, customs, hws, hwc, hsize, hcount, hpre, rfl, rfl, hle⟩
    rw [← List.append_assoc] at hpre
    obtain ⟨hpre, hpre'⟩ := append_prefix_drop.1 hpre
    have hpos' := le_of_prefix_drop hpos hpre
    have hlength := PackedInstr.length_interleave (List.replicate value 0) hsize
    rw [List.length_append, hlength, hcount, ← hn] at hle
    refine ⟨ws, wc, hws, hwc, hpre, ?_⟩
    rw [bind_eq_ok]
    refine ⟨_, (interleavedSize_eq_ok hL hvalue' hws.value_lt).2 ⟨rfl, hle⟩, ?_⟩
    refine (interleaved_eq_ok (unpackRepeatZeroStep_eq_ok hlen hvalue') (resize_final_eq_ok hvalue')
      hn hpos' hout').2 ⟨customs, hcount, hsize, hpre', ?_, rfl, ?_⟩
    · simp only [List.length_append, Nat.add_assoc]
    · rw [List.length_append, hlength, hcount, ← hn]
      omega

end

/-! ## Streams, from any position on -/

/-- The instructions from `pos` on satisfy `Q` and turn the output `out` into `v`. -/
def PackedRest (Q : PackedInstr → Prop) (data : List UInt8) (outLen pos : ℕ)
    (out v : List UInt8) : Prop :=
  ∃ l : List PackedInstr, (∀ i ∈ l, Q i) ∧ data.drop pos = l.flatMap PackedInstr.encode ∧
    v = out ++ l.flatMap PackedInstr.expand ∧ PackedStream outLen out.length l

section
variable {Q : PackedInstr → Prop} {data out v : List UInt8} {outLen pos : ℕ}

theorem PackedRest.le (h : PackedRest Q data outLen pos out v) : out.length ≤ outLen := by
  obtain ⟨l, -, -, -, hstream⟩ := h
  have hlength := hstream.length_eq
  omega

/-- A stream for an output that is complete ends there. -/
theorem packedRest_full (hfull : outLen ≤ out.length) (hpos : pos ≤ data.length) :
    PackedRest Q data outLen pos out v ↔ pos = data.length ∧ v = out ∧ out.length = outLen := by
  constructor
  · rintro ⟨l, -, hdrop, rfl, hstream⟩
    cases l with
    | nil =>
      rw [List.flatMap_nil, List.drop_eq_nil_iff] at hdrop
      rw [List.flatMap_nil, List.append_nil]
      exact ⟨le_antisymm hpos hdrop, rfl, hstream⟩
    | cons i l => exact absurd hstream.1 (not_lt.2 hfull)
  · rintro ⟨rfl, rfl, hlength⟩
    refine ⟨[], List.forall_mem_nil _, ?_, (List.append_nil _).symm, hlength⟩
    rw [List.drop_length]
    rfl

/-- No stream ends before its output is complete. -/
theorem not_packedRest (hfull : ¬outLen ≤ out.length) (hend : data.length ≤ pos) :
    ¬PackedRest Q data outLen pos out v := by
  rintro ⟨l, -, hdrop, -, hstream⟩
  rw [List.drop_eq_nil_of_le hend] at hdrop
  cases l with
  | nil => exact hfull (le_of_eq hstream.symm)
  | cons i l => exact i.encode_ne_nil (List.append_eq_nil_iff.1 hdrop.symm).1

/-- The first instruction of a stream. -/
theorem packedRest_cons (hfull : ¬outLen ≤ out.length) :
    PackedRest Q data outLen pos out v ↔ ∃ i, Q i ∧ i.encode <+: data.drop pos ∧
      PackedRest Q data outLen (pos + i.encode.length) (out ++ i.expand) v := by
  constructor
  · rintro ⟨l, hl, hdrop, rfl, hstream⟩
    cases l with
    | nil => exact absurd (le_of_eq hstream.symm) hfull
    | cons i l =>
      rw [List.flatMap_cons] at hdrop
      refine ⟨i, hl i List.mem_cons_self, ⟨_, hdrop.symm⟩, l,
        fun x hx => hl x (List.mem_cons_of_mem _ hx), ?_, ?_, ?_⟩
      · rw [← List.drop_drop, hdrop, List.drop_left]
      · rw [List.flatMap_cons, List.append_assoc]
      · rw [List.length_append]
        exact hstream.2
  · rintro ⟨i, hi, ⟨t, ht⟩, l, hl, hdrop, rfl, hstream⟩
    refine ⟨i :: l, ?_, ?_, ?_, not_le.1 hfull, ?_⟩
    · intro x hx
      rcases List.mem_cons.1 hx with rfl | hx
      · exact hi
      · exact hl x hx
    · rw [← List.drop_drop, ← ht, List.drop_left] at hdrop
      rw [← ht, hdrop, List.flatMap_cons]
    · rw [List.flatMap_cons, List.append_assoc]
    · rwa [List.length_append] at hstream

end

section
variable {data : List UInt8} (hlen : data.length ≤ isizeMax) {outLen : ℕ} (hL : outLen ≤ isizeMax)
include hlen hL

/-- **One instruction** of the format is unpacked, if the output does not overrun. -/
theorem unpackInstr_eq_ok {out o : List UInt8} (hout : out.length ≤ outLen) {pos p : ℕ}
    (hpos : pos < data.length) :
    unpackInstr data outLen out pos = .ok (o, p) ↔
      ∃ i : PackedInstr, i.Short ∧ i.encode <+: data.drop pos ∧ p = pos + i.encode.length ∧
        o = out ++ i.expand ∧ o.length ≤ outLen := by
  unfold unpackInstr
  simp only [bind_eq_ok, mapErr_eq_ok, Prod.exists]
  constructor
  · rintro ⟨op, value, q, hhead, h⟩
    obtain ⟨head, hshort, hpre, rfl, rfl⟩ := (unpackHead_eq_ok hlen hpos).1 hhead
    have hq := le_of_prefix_drop hpos.le hpre
    have hvalue := head.value_lt hshort
    split at h
    case h_1 hop =>
      obtain rfl : op = 0 := UInt8.toNat_inj.1 hop
      obtain ⟨rfl, rfl, hle⟩ := (unpackZero_eq_ok hL hout).1 h
      exact ⟨.zero head, hshort, hpre, rfl, rfl, hle⟩
    case h_2 hop =>
      obtain rfl : op = 1 := UInt8.toNat_inj.1 hop
      obtain ⟨b, hb, hpre', rfl, rfl, hle⟩ := (unpackBlock_eq_ok hlen hL hq).1 h
      refine ⟨.block head b hb, hshort, append_prefix_drop.2 ⟨hpre, hpre'⟩, ?_, rfl, hle⟩
      exact add_length_add_length
    case h_3 hop =>
      obtain rfl : op = 2 := UInt8.toNat_inj.1 hop
      obtain ⟨w, b, hw, hb, hpre', rfl, rfl, hle⟩ := (unpackRepeat_eq_ok hlen hL hout hq).1 h
      refine ⟨.repeat_ head w b hb, PackedInstr.short_repeat.2 ⟨hshort, hw⟩,
        append_prefix_drop.2 ⟨hpre, hpre'⟩, ?_, rfl, hle⟩
      exact add_length_add_length
    case h_4 hop =>
      obtain rfl : op = 3 := UInt8.toNat_inj.1 hop
      obtain ⟨ws, wc, common, customs, hws, hwc, hcommon, hsize, hcount, hpre', rfl, rfl, hle⟩ :=
        (unpackRepeatBlock_eq_ok hlen hL hout hq).1 h
      refine ⟨.repeatBlock head ws wc common customs hcommon hsize hcount,
        PackedInstr.short_repeatBlock.2 ⟨hshort, hws, hwc⟩, append_prefix_drop.2 ⟨hpre, hpre'⟩, ?_,
        rfl, hle⟩
      exact add_length_add_length
    case h_5 hop =>
      obtain rfl : op = 4 := UInt8.toNat_inj.1 hop
      obtain ⟨ws, wc, customs, hws, hwc, hsize, hcount, hpre', rfl, rfl, hle⟩ :=
        (unpackRepeatZero_eq_ok hlen hL hout hq hvalue).1 h
      refine ⟨.repeatZero head ws wc customs hsize hcount,
        PackedInstr.short_repeatZero.2 ⟨hshort, hws, hwc⟩, append_prefix_drop.2 ⟨hpre, hpre'⟩, ?_,
        rfl, hle⟩
      exact add_length_add_length
    case h_6 =>
      obtain ⟨_, -, h⟩ := bind_eq_ok.1 h
      cases h
  · rintro ⟨i, hshort, hpre, rfl, rfl, hle⟩
    cases i with
    | zero head =>
      exact ⟨0, _, _, (unpackHead_eq_ok hlen hpos).2 ⟨head, hshort, hpre, rfl, rfl⟩,
        (unpackZero_eq_ok hL hout).2 ⟨rfl, rfl, hle⟩⟩
    | block head b hb =>
      obtain ⟨hpre, hpre'⟩ := append_prefix_drop.1 hpre
      have hq := le_of_prefix_drop hpos.le hpre
      refine ⟨1, _, _, (unpackHead_eq_ok hlen hpos).2 ⟨head, hshort, hpre, rfl, rfl⟩,
        (unpackBlock_eq_ok hlen hL hq).2 ⟨b, hb, hpre', ?_, rfl, hle⟩⟩
      exact add_length_add_length.symm
    | repeat_ head w b hb =>
      obtain ⟨hshort, hw⟩ := PackedInstr.short_repeat.1 hshort
      obtain ⟨hpre, hpre'⟩ := append_prefix_drop.1 hpre
      have hq := le_of_prefix_drop hpos.le hpre
      refine ⟨2, _, _, (unpackHead_eq_ok hlen hpos).2 ⟨head, hshort, hpre, rfl, rfl⟩,
        (unpackRepeat_eq_ok hlen hL hout hq).2 ⟨w, b, hw, hb, hpre', ?_, rfl, hle⟩⟩
      exact add_length_add_length.symm
    | repeatBlock head ws wc common customs hcommon hsize hcount =>
      obtain ⟨hshort, hws, hwc⟩ := PackedInstr.short_repeatBlock.1 hshort
      obtain ⟨hpre, hpre'⟩ := append_prefix_drop.1 hpre
      have hq := le_of_prefix_drop hpos.le hpre
      refine ⟨3, _, _, (unpackHead_eq_ok hlen hpos).2 ⟨head, hshort, hpre, rfl, rfl⟩,
        (unpackRepeatBlock_eq_ok hlen hL hout hq).2
          ⟨ws, wc, common, customs, hws, hwc, hcommon, hsize, hcount, hpre', ?_, rfl, hle⟩⟩
      exact add_length_add_length.symm
    | repeatZero head ws wc customs hsize hcount =>
      obtain ⟨hshort, hws, hwc⟩ := PackedInstr.short_repeatZero.1 hshort
      obtain ⟨hpre, hpre'⟩ := append_prefix_drop.1 hpre
      have hq := le_of_prefix_drop hpos.le hpre
      refine ⟨4, _, _, (unpackHead_eq_ok hlen hpos).2 ⟨head, hshort, hpre, rfl, rfl⟩,
        (unpackRepeatZero_eq_ok hlen hL hout hq (head.value_lt hshort)).2
          ⟨ws, wc, customs, hws, hwc, hsize, hcount, hpre', ?_, rfl, hle⟩⟩
      exact add_length_add_length.symm

/-- **The loop** unpacks what is left of a stream. -/
theorem unpackLoop_eq_ok {fuel : ℕ} {out : List UInt8} (hout : out.length ≤ outLen) {pos : ℕ}
    (hpos : pos ≤ data.length) (hfuel : data.length - pos < fuel) {v : List UInt8} :
    unpackLoop data outLen fuel out pos = .ok v ↔
      PackedRest PackedInstr.Short data outLen pos out v := by
  induction fuel generalizing out pos with
  | zero => omega
  | succ fuel ih =>
    unfold unpackLoop
    by_cases hfull : outLen ≤ out.length
    · rw [if_pos hfull, packedRest_full hfull hpos]
      split_ifs with hend
      · rw [ok.injEq]
        constructor
        · rintro rfl
          exact ⟨hend, rfl, le_antisymm hout hfull⟩
        · rintro ⟨-, rfl, -⟩
          rfl
      · exact iff_of_false id fun h => hend h.1
    rw [if_neg hfull]
    by_cases hend : data.length ≤ pos
    · rw [if_pos hend]
      refine iff_of_false ?_ (not_packedRest hfull hend)
      intro heq
      cases heq
    rw [if_neg hend, packedRest_cons hfull]
    simp only [bind_eq_ok, Prod.exists, unpackInstr_eq_ok hlen hL hout (not_le.1 hend)]
    have hnext : ∀ {i : PackedInstr} {o : List UInt8}, i.encode <+: data.drop pos →
        o.length ≤ outLen → (unpackLoop data outLen fuel o (pos + i.encode.length) = .ok v ↔
          PackedRest PackedInstr.Short data outLen (pos + i.encode.length) o v) := by
      intro i o hpre hle
      have hne := List.length_pos_of_ne_nil i.encode_ne_nil
      exact ih hle (le_of_prefix_drop hpos hpre) (by omega)
    constructor
    · rintro ⟨_, _, ⟨i, hi, hpre, rfl, rfl, hle⟩, hrest⟩
      exact ⟨i, hi, hpre, (hnext hpre hle).1 hrest⟩
    · rintro ⟨i, hi, hpre, hrest⟩
      exact ⟨_, _, ⟨i, hi, hpre, rfl, rfl, hrest.le⟩, (hnext hpre hrest.le).2 hrest⟩

/-- A decode succeeds exactly on the streams of the format. -/
theorem unpackPacked_eq_ok {v : List UInt8} :
    unpackPacked data outLen = .ok v ↔ Unpacks data outLen v := by
  have hcap : (withCapacity 1 outLen : Partial (List UInt8)) = .ok [] := if_pos (by rwa [Nat.one_mul])
  rw [unpackPacked, mapErr_eq_ok, unpackPackedPartial, hcap, ok_bind,
    unpackLoop_eq_ok hlen hL (Nat.zero_le _) (Nat.zero_le _) (by omega)]
  constructor
  · rintro ⟨l, hl, hdata, rfl, hstream⟩
    exact ⟨l, ⟨hdata, rfl, hstream⟩, hl⟩
  · rintro ⟨l, ⟨hdata, rfl, hstream⟩, hl⟩
    exact ⟨l, hl, hdata, rfl, hstream⟩

end

/-- **Unpacking is exact**: for a length that a vector can have, the streams of the format
    and no others are unpacked, to the bytes they stand for, and the rest is refused; no
    vector can have any other length. -/
theorem unpackPacked_exact (data : Slice) (outLen : ℕ) :
    (outLen ≤ isizeMax →
      (∀ v, unpackPacked data.bytes outLen = .ok v ↔
        ∃ l : List PackedInstr, data.bytes = l.flatMap PackedInstr.encode ∧
          v = l.flatMap PackedInstr.expand ∧ (∀ i ∈ l, i.Short) ∧ v.length = outLen ∧
          ∀ l₁ i l₂, l = l₁ ++ i :: l₂ → (l₁.flatMap PackedInstr.expand).length < outLen) ∧
      ((∀ v, unpackPacked data.bytes outLen ≠ .ok v) →
        ∃ msg, unpackPacked data.bytes outLen = .err msg)) ∧
    (isizeMax < outLen → unpackPacked data.bytes outLen = .panic) := by
  refine ⟨?_, unpackPacked_eq_panic data.bytes⟩
  intro hL
  constructor
  · intro v
    rw [unpackPacked_eq_ok data.length_le hL]
    constructor
    · rintro ⟨l, ⟨hdata, rfl, hstream⟩, hl⟩
      obtain ⟨hlen, hstart⟩ := packedStream_iff.1 hstream
      simp only [Nat.zero_add] at hlen hstart
      exact ⟨l, hdata, rfl, hl, hlen, hstart⟩
    · rintro ⟨l, hdata, rfl, hl, hlen, hstart⟩
      refine ⟨l, ⟨hdata, rfl, packedStream_iff.2 ?_⟩, hl⟩
      simp only [Nat.zero_add]
      exact ⟨hlen, hstart⟩
  · intro hrefused
    have hsafe := (unpackPacked_safe data.length_le hL).ne_panic
    cases hr : unpackPacked data.bytes outLen with
    | ok v => exact absurd hr (hrefused v)
    | err msg => exact ⟨msg, rfl⟩
    | panic => exact absurd hr hsafe

example : unpackPacked [0x82, 1, 2, 0xaa, 0xbb] 8 = .ok [0, 0, 0xaa, 0, 0, 0xbb, 0, 0] := by decide

/-- A length that is not refused, though the empty stream is not for it. -/
theorem unpackPacked_capacity :
    unpackPacked [] (2 ^ 63) = .panic ∧ ∀ v, ¬ Unpacks [] (2 ^ 63) v :=
  ⟨unpackPacked_eq_panic [] (by decide), fun _ => not_unpacks_nil (by decide)⟩

end Usbmidi9
