/-
  USBMIDI9 — what is left of a truncated packed stream (`pefcheck/src/pef.rs`).

  `unpackPackedPartial` returns what it decoded when the stream breaks off.  `Honest`
  compares it with a run on a longer stream: while the shorter run succeeds both do the
  same, and what the shorter one returns with an error is a prefix of whatever the longer
  one returns.  Its rules follow the structure of a program (`Honest.bind`,
  `Honest.iterate`), so that each opcode is honest, and hence the whole decode
  (`unpackPackedPartial_extends`).
-/
import Usbmidi9.Pef.Unpack

namespace Usbmidi9

open Outcome

/-! ## Two runs -/

section
variable {α β : Type}

/-- The content that is returned extends `c`; `p` reads it off a result. -/
def Emits (p : α → List UInt8) (c : List UInt8) : Partial α → Prop
  | .ok a => c <+: p a
  | .err e => c <+: e.1
  | .panic => True

/-- The run `y` does what the run `x` does, as long as `x` succeeds, and returns more if
    `x` fails.  Both begin with the content `c`. -/
structure Honest (p : α → List UInt8) (c : List UInt8) (x y : Partial α) : Prop where
  ok : ∀ a, x = .ok a → y = .ok a
  err : ∀ e, x = .err e → Emits p e.1 y
  emits : Emits p c y

variable {p : α → List UInt8} {q : β → List UInt8} {c out : List UInt8}

theorem Emits.mono {c' : List UInt8} {x : Partial α} (hc : c' <+: c) (h : Emits p c x) :
    Emits p c' x := by
  cases x with
  | ok a => exact hc.trans h
  | err e => exact hc.trans h
  | panic => trivial

theorem Emits.bind {x : Partial α} {f : α → Partial β} (h : Emits p c x)
    (hf : ∀ a, Emits q (p a) (f a)) : Emits q c (x >>= f) := by
  cases x with
  | ok a => exact (hf a).mono h
  | err e => exact h
  | panic => trivial

namespace Honest

theorem refl {x : Partial α} (h : Emits p c x) : Honest p c x x := by
  refine ⟨fun _ => id, ?_, h⟩
  rintro e rfl
  exact List.prefix_rfl

theorem pure {a : α} (h : c <+: p a) : Honest p c (.ok a) (.ok a) := refl h

/-- **Sequence.** -/
theorem bind {x y : Partial α} {f g : α → Partial β} (h : Honest p c x y)
    (hfg : ∀ a, Honest q (p a) (f a) (g a)) : Honest q c (x >>= f) (y >>= g) := by
  refine ⟨?_, ?_, h.emits.bind fun a => (hfg a).emits⟩
  · intro b hb
    obtain ⟨a, ha, hb⟩ := bind_eq_ok.1 hb
    rw [h.ok a ha, ok_bind]
    exact (hfg a).ok b hb
  · intro e he
    cases hx : x with
    | ok a =>
      rw [hx] at he
      rw [h.ok a hx, ok_bind]
      exact (hfg a).err e he
    | err e' =>
      rw [hx] at he
      obtain rfl := err.inj he
      exact (h.err e' hx).bind fun a => (hfg a).emits
    | panic =>
      rw [hx] at he
      cases he

/-- A step that returns the content so far when it fails, and keeps it otherwise. -/
theorem mapErr {x y : Outcome String α} (h : ∀ a, x = .ok a → y = .ok a) :
    Honest (fun _ => out) out (x.mapErr (out, ·)) (y.mapErr (out, ·)) := by
  have hemits : Emits (fun _ => out) out (y.mapErr (out, ·)) := by
    cases y with
    | ok a => exact List.prefix_rfl
    | err e => exact List.prefix_rfl
    | panic => trivial
  refine ⟨?_, ?_, hemits⟩
  · intro a ha
    exact mapErr_eq_ok.2 (h a (mapErr_eq_ok.1 ha))
  · intro e he
    cases x with
    | ok a => cases he
    | err e' =>
      obtain rfl := err.inj he
      exact hemits
    | panic => cases he

theorem okOr {e : String} {o : Option α} :
    Honest (fun _ => out) out (Outcome.okOr (out, e) o) (Outcome.okOr (out, e) o) := by
  refine refl ?_
  cases o with
  | none => exact List.prefix_rfl
  | some a => exact List.prefix_rfl

/-- **Repetition.** -/
theorem iterate {f g : α → Partial α} (h : ∀ a, Honest p (p a) (f a) (g a)) (n : ℕ) (a : α) :
    Honest p (p a) (iterate f n a) (iterate g n a) := by
  induction n generalizing a with
  | zero => exact pure List.prefix_rfl
  | succ n ih => exact (h a).bind ih

/-- The content grows by a block. -/
theorem extend (out block : List UInt8) :
    Honest id out (Outcome.extend out block) (Outcome.extend out block) := by
  refine refl ?_
  unfold Outcome.extend
  split_ifs
  · exact List.prefix_append out block
  · trivial

/-- The content grows by zeros. -/
theorem resize (out : List UInt8) (n : ℕ) :
    Honest id out (Outcome.resize out (out.length + n) 0)
      (Outcome.resize out (out.length + n) 0) := by
  refine refl ?_
  rw [resize_add]
  split_ifs
  · exact List.prefix_rfl
  · exact (extend out _).emits

/-- An addition does not touch the content. -/
theorem word {n : ℕ} {f g : ℕ → Partial β} (h : Honest q c (f n) (g n)) :
    Honest q c (Outcome.word n >>= f) (Outcome.word n >>= g) := by
  unfold Outcome.word
  split_ifs
  · exact h
  · refine refl ?_
    trivial

end Honest

end

/-! ## Reading a longer stream -/

section
variable {data suffix : List UInt8}

theorem get_append {ε : Type} {pos : ℕ} {b : UInt8} (h : (get data pos : Outcome ε UInt8) = .ok b) :
    (get (data ++ suffix) pos : Outcome ε UInt8) = .ok b := by
  have hget := get_eq_ok.1 h
  have hlt := (List.getElem?_eq_some_iff.1 hget).1
  rw [get_eq_ok, List.getElem?_append_left hlt, hget]

theorem varintLoop_append {fuel pos v count : ℕ} {r : ℕ × ℕ}
    (h : varintLoop data fuel pos v count = .ok r) :
    varintLoop (data ++ suffix) fuel pos v count = .ok r := by
  induction fuel generalizing pos v count with
  | zero => cases h
  | succ fuel ih =>
    unfold varintLoop at h ⊢
    by_cases hend : data.length ≤ pos
    · rw [if_pos hend] at h
      cases h
    rw [if_neg hend] at h
    obtain ⟨b, hb, h⟩ := bind_eq_ok.1 h
    obtain ⟨pos', hpos, h⟩ := bind_eq_ok.1 h
    obtain ⟨v', hv, h⟩ := bind_eq_ok.1 h
    have hend' : ¬(data ++ suffix).length ≤ pos := by
      rw [List.length_append]
      omega
    rw [if_neg hend', get_append hb, ok_bind, hpos, ok_bind, hv, ok_bind]
    split_ifs at h ⊢ with hlow hlong
    · exact h
    · exact ih h

theorem varint_append {pos : ℕ} {r : ℕ × ℕ} (h : varint data pos = .ok r) :
    varint (data ++ suffix) pos = .ok r := varintLoop_append h

theorem take_append {pos n : ℕ} {what : String} {r : List UInt8 × ℕ}
    (h : take data pos n what = .ok r) : take (data ++ suffix) pos n what = .ok r := by
  unfold take at h ⊢
  split_ifs at h with hshort
  obtain ⟨e, he, h⟩ := bind_eq_ok.1 h
  obtain ⟨block, hblock, h⟩ := bind_eq_ok.1 h
  obtain ⟨hlt, rfl⟩ := word_eq_ok.1 he
  have hend : pos + n ≤ data.length := by
    by_contra hout
    refine hshort fun e he => ?_
    obtain ⟨rfl, -⟩ := checkedAdd_eq_some.1 he
    omega
  have henough : ¬∀ e ∈ checkedAdd pos n, (data ++ suffix).length < e := by
    intro hall
    have hlt' := hall (pos + n) (checkedAdd_eq_some.2 ⟨rfl, hlt⟩)
    rw [List.length_append] at hlt'
    omega
  have hend' : pos + n ≤ (data ++ suffix).length := by
    rw [List.length_append]
    omega
  have hslice : (slice (data ++ suffix) pos (pos + n) : Outcome String (List UInt8)) =
      slice data pos (pos + n) := by
    rw [slice_eq (by omega) hend', slice_eq (by omega) hend, List.take_append_of_le_length hend]
  rw [if_neg henough, he, ok_bind, hslice, hblock, ok_bind, h]

theorem unpackHead_append {pos : ℕ} {r : UInt8 × ℕ × ℕ} (h : unpackHead data pos = .ok r) :
    unpackHead (data ++ suffix) pos = .ok r := by
  unfold unpackHead at h ⊢
  obtain ⟨b, hb, h⟩ := bind_eq_ok.1 h
  obtain ⟨pos', hpos, h⟩ := bind_eq_ok.1 h
  obtain ⟨⟨value, p⟩, hvalue, h⟩ := bind_eq_ok.1 h
  rw [get_append hb, ok_bind, hpos, ok_bind]
  split_ifs at hvalue ⊢ with hlong
  · rw [varint_append hvalue, ok_bind, h]
  · rw [hvalue, ok_bind, h]

/-! ## Opcodes -/

variable {outLen pos value : ℕ} {out : List UInt8}

theorem grow_honest {add : ℕ} {op : String} :
    Honest (fun _ => out) out ((grow out outLen add op).mapErr (out, ·))
      ((grow out outLen add op).mapErr (out, ·)) := .mapErr fun _ => id

theorem unpackZero_honest :
    Honest Prod.fst out (unpackZero outLen out pos value) (unpackZero outLen out pos value) := by
  refine grow_honest.bind fun _ => .word ?_
  exact (Honest.resize out value).bind fun _ => .pure List.prefix_rfl

theorem unpackBlock_honest :
    Honest Prod.fst out (unpackBlock data outLen out pos value)
      (unpackBlock (data ++ suffix) outLen out pos value) := by
  refine (Honest.mapErr fun _ => take_append).bind ?_
  rintro ⟨block, p⟩
  refine grow_honest.bind fun _ => ?_
  exact (Honest.extend out block).bind fun _ => .pure List.prefix_rfl

theorem unpackRepeat_honest :
    Honest Prod.fst out (unpackRepeat data outLen out pos value)
      (unpackRepeat (data ++ suffix) outLen out pos value) := by
  refine (Honest.mapErr fun _ => varint_append).bind ?_
  rintro ⟨count, p⟩
  refine (Honest.mapErr fun _ => take_append).bind ?_
  rintro ⟨block, p'⟩
  refine Honest.okOr.bind fun n => grow_honest.bind fun _ => ?_
  split_ifs
  · refine (Honest.iterate (fun o => Honest.extend o block) (count + 1) out).bind ?_
    exact fun _ => .pure List.prefix_rfl
  · exact .pure List.prefix_rfl

theorem interleavedSize_honest {customSize repeatCount : ℕ} {op : String} :
    Honest (fun _ => out) out (interleavedSize outLen out value customSize repeatCount op)
      (interleavedSize outLen out value customSize repeatCount op) := by
  refine Honest.okOr.bind fun _ => Honest.okOr.bind fun n => grow_honest.bind fun _ => ?_
  exact .pure List.prefix_rfl

theorem unpackRepeatBlockStep_honest {common : List UInt8} {customSize : ℕ}
    (s : List UInt8 × ℕ) :
    Honest Prod.fst s.1 (unpackRepeatBlockStep data common customSize s)
      (unpackRepeatBlockStep (data ++ suffix) common customSize s) := by
  refine (Honest.mapErr fun _ => take_append).bind ?_
  rintro ⟨custom, p⟩
  refine (Honest.extend s.1 common).bind fun o => ?_
  exact (Honest.extend o custom).bind fun _ => .pure List.prefix_rfl

theorem unpackRepeatBlock_honest :
    Honest Prod.fst out (unpackRepeatBlock data outLen out pos value)
      (unpackRepeatBlock (data ++ suffix) outLen out pos value) := by
  refine (Honest.mapErr fun _ => varint_append).bind ?_
  rintro ⟨customSize, p⟩
  refine (Honest.mapErr fun _ => varint_append).bind ?_
  rintro ⟨repeatCount, p'⟩
  refine (Honest.mapErr fun _ => take_append).bind ?_
  rintro ⟨common, p''⟩
  refine interleavedSize_honest.bind fun n => ?_
  split_ifs
  · refine (Honest.iterate unpackRepeatBlockStep_honest repeatCount (out, p'')).bind fun s => ?_
    exact (Honest.extend s.1 common).bind fun _ => .pure List.prefix_rfl
  · exact .pure List.prefix_rfl

theorem unpackRepeatZeroStep_honest {commonSize customSize : ℕ} (s : List UInt8 × ℕ) :
    Honest Prod.fst s.1 (unpackRepeatZeroStep data commonSize customSize s)
      (unpackRepeatZeroStep (data ++ suffix) commonSize customSize s) := by
  refine .word ((Honest.resize s.1 commonSize).bind fun o => ?_)
  refine (Honest.mapErr fun _ => take_append).bind ?_
  rintro ⟨custom, p⟩
  exact (Honest.extend o custom).bind fun _ => .pure List.prefix_rfl

theorem unpackRepeatZero_honest :
    Honest Prod.fst out (unpackRepeatZero data outLen out pos value)
      (unpackRepeatZero (data ++ suffix) outLen out pos value) := by
  refine (Honest.mapErr fun _ => varint_append).bind ?_
  rintro ⟨customSize, p⟩
  refine (Honest.mapErr fun _ => varint_append).bind ?_
  rintro ⟨repeatCount, p'⟩
  refine interleavedSize_honest.bind fun n => ?_
  split_ifs
  · refine (Honest.iterate unpackRepeatZeroStep_honest repeatCount (out, p')).bind fun s => ?_
    exact .word ((Honest.resize s.1 value).bind fun _ => .pure List.prefix_rfl)
  · exact .pure List.prefix_rfl

/-- **One instruction** is honest. -/
theorem unpackInstr_honest :
    Honest Prod.fst out (unpackInstr data outLen out pos)
      (unpackInstr (data ++ suffix) outLen out pos) := by
  refine (Honest.mapErr fun _ => unpackHead_append).bind ?_
  rintro ⟨opcode, value, p⟩
  dsimp only
  split
  · exact unpackZero_honest
  · exact unpackBlock_honest
  · exact unpackRepeat_honest
  · exact unpackRepeatBlock_honest
  · exact unpackRepeatZero_honest
  · refine .refl ?_
    unfold wordSub
    split_ifs
    · exact List.prefix_rfl
    · trivial

/-! ## The length of what is left -/

/-- The content that comes with an error is within `outLen`. -/
def Fits (outLen : ℕ) (e : List UInt8 × String) : Prop := e.1.length ≤ outLen

/-- An error that returns the content so far. -/
theorem stop_errs {α : Type} {x : Outcome String α} (hout : out.length ≤ outLen) :
    (x.mapErr (out, ·)).Errs (Fits outLen) := .mapErr fun _ => hout

theorem okOr_errs {α : Type} {e : String} {o : Option α} (hout : out.length ≤ outLen) :
    (okOr (out, e) o).Errs (Fits outLen) := .okOr hout

section
variable (hlen : data.length ≤ isizeMax) (hL : outLen ≤ isizeMax) (hout : out.length ≤ outLen)

theorem unpackRepeatBlockStep_errs {common : List UInt8} {customSize : ℕ} {s : List UInt8 × ℕ}
    (hs : s.1.length + (common.length + customSize) ≤ outLen) :
    (unpackRepeatBlockStep data common customSize s).Errs (Fits outLen) := by
  refine (stop_errs (by omega)).bind_all ?_
  rintro ⟨custom, t⟩
  refine Errs.extend.bind_all fun o => ?_
  refine Errs.extend.bind_all fun o' => ?_
  exact .of_eq_ok rfl

section
include hout

theorem unpackZero_errs : (unpackZero outLen out pos value).Errs (Fits outLen) := by
  refine (stop_errs hout).bind_all fun _ => ?_
  refine Errs.word.bind_all fun n => ?_
  refine Errs.resize.bind_all fun o => ?_
  exact .of_eq_ok rfl

theorem unpackBlock_errs : (unpackBlock data outLen out pos value).Errs (Fits outLen) := by
  refine (stop_errs hout).bind_all ?_
  rintro ⟨block, p⟩
  refine (stop_errs hout).bind_all fun _ => ?_
  refine Errs.extend.bind_all fun o => ?_
  exact .of_eq_ok rfl

theorem unpackRepeat_errs : (unpackRepeat data outLen out pos value).Errs (Fits outLen) := by
  refine (stop_errs hout).bind_all ?_
  rintro ⟨count, p⟩
  refine (stop_errs hout).bind_all ?_
  rintro ⟨block, q⟩
  refine (okOr_errs hout).bind_all fun n => ?_
  refine (stop_errs hout).bind_all fun _ => ?_
  split_ifs
  · refine (Errs.iterate_all fun o => .extend).bind_all fun o => ?_
    exact .of_eq_ok rfl
  · exact .of_eq_ok rfl

theorem interleavedSize_errs {customSize repeatCount : ℕ} {op : String} :
    (interleavedSize outLen out value customSize repeatCount op).Errs (Fits outLen) := by
  refine (okOr_errs hout).bind_all fun perIter => ?_
  refine (okOr_errs hout).bind_all fun n => ?_
  refine (stop_errs hout).bind_all fun _ => ?_
  exact .of_eq_ok rfl

end

include hL

theorem unpackRepeatZeroStep_errs {commonSize customSize : ℕ} {s : List UInt8 × ℕ}
    (hs : s.1.length + (commonSize + customSize) ≤ outLen) :
    (unpackRepeatZeroStep data commonSize customSize s).Errs (Fits outLen) := by
  unfold unpackRepeatZeroStep
  rw [word_eq_of_le (by omega), ok_bind]
  refine Errs.resize.bind (resize_safe hL (by omega)) ?_
  intro o ho
  refine (stop_errs (by omega)).bind_all ?_
  rintro ⟨custom, t⟩
  refine Errs.extend.bind_all fun o' => ?_
  exact .of_eq_ok rfl

include hlen hout

theorem unpackRepeatBlock_errs :
    (unpackRepeatBlock data outLen out pos value).Errs (Fits outLen) := by
  refine (stop_errs hout).bind (varint_safe hlen).mapErr ?_
  rintro ⟨customSize, p⟩ -
  refine (stop_errs hout).bind (varint_safe hlen).mapErr ?_
  rintro ⟨repeatCount, q⟩ -
  refine (stop_errs hout).bind (take_safe hlen).mapErr ?_
  rintro ⟨common, r⟩ ⟨rfl, -, hr⟩
  refine (interleavedSize_errs hout).bind (interleavedSize_safe hL) ?_
  rintro n ⟨rfl, hgrow⟩
  split_ifs
  · refine Errs.bind_all ?_ fun s => ?_
    · exact iterate_blocks_errs (fun s hs _ => unpackRepeatBlockStep_safe hlen hL hs)
        (fun s => unpackRepeatBlockStep_errs) hgrow hr
    · exact Errs.extend.bind_all fun o => .of_eq_ok rfl
  · exact .of_eq_ok rfl

theorem unpackRepeatZero_errs :
    (unpackRepeatZero data outLen out pos value).Errs (Fits outLen) := by
  refine (stop_errs hout).bind (varint_safe hlen).mapErr ?_
  rintro ⟨customSize, p⟩ -
  refine (stop_errs hout).bind (varint_safe hlen).mapErr ?_
  rintro ⟨repeatCount, q⟩ ⟨-, hq⟩
  refine (interleavedSize_errs hout).bind (interleavedSize_safe hL) ?_
  rintro n ⟨rfl, hgrow⟩
  split_ifs
  · refine Errs.bind_all ?_ fun s => ?_
    · exact iterate_blocks_errs (fun s hs _ => unpackRepeatZeroStep_safe hlen hL hs)
        (fun s => unpackRepeatZeroStep_errs hL) hgrow hq
    · refine Errs.word.bind_all fun n => ?_
      exact Errs.resize.bind_all fun o => .of_eq_ok rfl
  · exact .of_eq_ok rfl

theorem unpackInstr_errs : (unpackInstr data outLen out pos).Errs (Fits outLen) := by
  refine (stop_errs hout).bind_all ?_
  rintro ⟨opcode, value, p⟩
  dsimp only
  split
  · exact unpackZero_errs hout
  · exact unpackBlock_errs hout
  · exact unpackRepeat_errs hout
  · exact unpackRepeatBlock_errs hlen hL hout
  · exact unpackRepeatZero_errs hlen hL hout
  · unfold wordSub
    split_ifs
    · exact .of_err hout
    · exact .of_panic rfl

end

/-! ## The whole stream -/

/-- The bytes that are returned. -/
def returned : Partial (List UInt8) → Option (List UInt8)
  | .ok out => some out
  | .err (out, _) => some out
  | .panic => none

theorem emits_iff {c : List UInt8} {x : Partial (List UInt8)} :
    Emits id c x ↔ ∀ c', returned x = some c' → c <+: c' := by
  cases x with
  | ok a => simp [Emits, returned]
  | err e => simp [Emits, returned]
  | panic => simp [Emits, returned]

theorem unpackLoop_emits {fuel : ℕ} :
    Emits id out (unpackLoop data outLen fuel out pos) := by
  induction fuel generalizing out pos with
  | zero => trivial
  | succ fuel ih =>
    unfold unpackLoop
    split_ifs with hfull hend hend
    · exact List.prefix_rfl
    · exact List.prefix_rfl
    · exact List.prefix_rfl
    · have hinstr : Emits Prod.fst out (unpackInstr (data ++ []) outLen out pos) :=
        unpackInstr_honest.emits
      rw [List.append_nil] at hinstr
      exact hinstr.bind fun s => ih

/-- **What a shorter stream leaves** is a prefix of what a longer one does, however far
    the runs are. -/
theorem unpackLoop_extends {fuel fuel' : ℕ} {c : List UInt8}
    (h : returned (unpackLoop data outLen fuel out pos) = some c) :
    Emits id c (unpackLoop (data ++ suffix) outLen fuel' out pos) := by
  induction fuel generalizing fuel' out pos with
  | zero => cases h
  | succ fuel ih =>
    cases fuel' with
    | zero => trivial
    | succ fuel' =>
      by_cases hfull : outLen ≤ out.length
      · -- both stop here
        rw [unpackLoop, if_pos hfull] at h
        have hc : c = out := by
          split_ifs at h
          · exact (Option.some.inj h).symm
          · exact (Option.some.inj h).symm
        rw [hc]
        exact unpackLoop_emits
      by_cases hend : data.length ≤ pos
      · -- the shorter stream is exhausted
        rw [unpackLoop, if_neg hfull, if_pos hend] at h
        obtain rfl := Option.some.inj h
        exact unpackLoop_emits
      have hend' : ¬(data ++ suffix).length ≤ pos := by
        rw [List.length_append]
        omega
      rw [unpackLoop, if_neg hfull, if_neg hend] at h
      rw [unpackLoop, if_neg hfull, if_neg hend']
      have hinstr : Honest Prod.fst out (unpackInstr data outLen out pos)
        (unpackInstr (data ++ suffix) outLen out pos) := unpackInstr_honest
      cases hrun : unpackInstr data outLen out pos with
      | ok s =>
        rw [hrun] at h
        rw [hinstr.ok s hrun]
        exact ih h
      | err e =>
        rw [hrun] at h
        obtain rfl := Option.some.inj h
        exact (hinstr.err e hrun).bind fun s => unpackLoop_emits
      | panic =>
        rw [hrun] at h
        cases h

theorem unpackLoop_errs (hlen : data.length ≤ isizeMax) (hL : outLen ≤ isizeMax)
    (hout : out.length ≤ outLen) {fuel : ℕ} :
    (unpackLoop data outLen fuel out pos).Errs (Fits outLen) := by
  induction fuel generalizing out pos with
  | zero => exact .of_panic rfl
  | succ fuel ih =>
    unfold unpackLoop
    split_ifs with hfull hend hend
    · exact .of_eq_ok rfl
    · exact .of_err hout
    · exact .of_err hout
    · refine (unpackInstr_errs hlen hL hout).bind (unpackInstr_safe hlen hL hout (not_le.1 hend)) ?_
      rintro ⟨o, p⟩ ⟨ho, -, -⟩
      exact ih ho

theorem unpackPackedPartial_eq (hL : outLen ≤ isizeMax) :
    unpackPackedPartial data outLen = unpackLoop data outLen (data.length + 1) [] 0 := by
  unfold unpackPackedPartial
  rw [withCapacity_eq (by rwa [Nat.one_mul]), ok_bind]

/-- A decode returns, and not more than was asked for. -/
theorem returned_unpackPackedPartial (hlen : data.length ≤ isizeMax) (hL : outLen ≤ isizeMax) :
    ∃ c, returned (unpackPackedPartial data outLen) = some c ∧ c.length ≤ outLen := by
  have hsafe := unpackPackedPartial_safe hlen hL
  have herrs : (unpackPackedPartial data outLen).Errs (Fits outLen) := by
    rw [unpackPackedPartial_eq hL]
    refine unpackLoop_errs hlen hL ?_
    exact outLen.zero_le
  cases hrun : unpackPackedPartial data outLen with
  | ok v => exact ⟨v, rfl, hsafe.of_eq_ok hrun⟩
  | err e => exact ⟨e.1, rfl, herrs e hrun⟩
  | panic => exact absurd hrun hsafe.ne_panic

end

/-- **Partial decodes are honest prefixes**: what a truncated stream decodes to is what
    the stream itself begins with, and no longer than `out_len`.  No vector is longer than
    `isizeMax`: that panics. -/
theorem unpackPackedPartial_extends (data suffix : List UInt8)
    (h : (data ++ suffix).length ≤ isizeMax) (outLen : ℕ) :
    if outLen ≤ isizeMax then
      ∃ c c', returned (unpackPackedPartial data outLen) = some c ∧
        returned (unpackPackedPartial (data ++ suffix) outLen) = some c' ∧
        c <+: c' ∧ c.length ≤ outLen
    else
      unpackPackedPartial data outLen = .panic ∧
        unpackPackedPartial (data ++ suffix) outLen = .panic := by
  have hlen : data.length ≤ isizeMax := by
    rw [List.length_append] at h
    omega
  split_ifs with hL
  · obtain ⟨c, hc, hfit⟩ := returned_unpackPackedPartial hlen hL
    obtain ⟨c', hc', -⟩ := returned_unpackPackedPartial h hL
    refine ⟨c, c', hc, hc', ?_, hfit⟩
    rw [unpackPackedPartial_eq hL] at hc hc'
    exact emits_iff.1 (unpackLoop_extends hc) c' hc'
  · have hcap : (withCapacity 1 outLen : Partial (List UInt8)) = .panic :=
      if_neg (by rwa [Nat.one_mul])
    unfold unpackPackedPartial
    rw [hcap]
    exact ⟨rfl, rfl⟩

/-- A block of two bytes, of which one is there. -/
theorem unpackPackedPartial_extends_block :
    ∃ c c', returned (unpackPackedPartial [0x21, 7, 0x22, 8] 4) = some c ∧
      returned (unpackPackedPartial ([0x21, 7, 0x22, 8] ++ [9]) 4) = some c' ∧
      c <+: c' ∧ c.length ≤ 4 := by
  have h := unpackPackedPartial_extends [0x21, 7, 0x22, 8] [9] (by decide) 4
  rwa [if_pos (by decide)] at h

end Usbmidi9
