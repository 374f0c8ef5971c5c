/-
  USBMIDI9 — the container format, as `Container::parse` accepts it.

  `Container.Format` says what stands where in the file of a container: the header, the
  section table, the loader header, and the export table with its names.
  `Container.parse_eq_ok_iff`: the parser returns a container if and only if its file has that
  format.  Nothing else is accepted, nothing that has the format is refused, and every field
  is the one that is stored.
-/
import Usbmidi9.Lib.Placed
import Usbmidi9.Pef.Contents

namespace Usbmidi9

open Outcome

/-! ## Words -/

section
variable {ε : Type} {data : List UInt8} {off : ℕ}

theorem u32At_eq_ok {v : UInt32} :
    (u32At data off : Outcome ε _) = ok v ↔ Placed data off (u32ToBe v) := by
  unfold u32At
  simp only [bind_eq_ok, get_eq_ok, u32ToBe, placed_cons, placed_nil, and_true]
  constructor
  · rintro ⟨a, ha, b, hb, c, hc, d, hd, h⟩
    obtain rfl := ok.inj h
    obtain ⟨h₁, h₂, h₃, h₄, -⟩ : _ ∧ _ ∧ _ ∧ _ ∧ True := by
      simpa [u32ToBe] using u32ToBe_u32FromBe a b c d
    rw [h₁, h₂, h₃, h₄]
    exact ⟨ha, hb, hc, hd⟩
  · rintro ⟨ha, hb, hc, hd⟩
    exact ⟨_, ha, _, hb, _, hc, _, hd, by rw [u32FromBe_u32ToBe]⟩

theorem u16At_eq_ok {v : UInt16} :
    (u16At data off : Outcome ε _) = ok v ↔ Placed data off (u16ToBe v) := by
  unfold u16At
  simp only [bind_eq_ok, get_eq_ok, u16ToBe, placed_cons, placed_nil, and_true]
  constructor
  · rintro ⟨a, ha, b, hb, h⟩
    obtain rfl := ok.inj h
    obtain ⟨h₁, h₂⟩ : _ ∧ _ := by simpa [u16ToBe] using u16ToBe_u16FromBe a b
    rw [h₁, h₂]
    exact ⟨ha, hb⟩
  · rintro ⟨ha, hb⟩
    exact ⟨_, ha, _, hb, by rw [u16FromBe_u16ToBe]⟩

@[simp] theorem length_u32ToBe (v : UInt32) : (u32ToBe v).length = 4 := rfl
@[simp] theorem length_u16ToBe (v : UInt16) : (u16ToBe v).length = 2 := rfl

end

/-! ## Sections and the loader header -/

section
variable {data : List UInt8}

theorem need_eq_ok (hmax : data.length ≤ isizeMax) {off n : ℕ} {what : String} {u : Unit} :
    need data off n what = ok u ↔ off + n ≤ data.length := by
  rw [need, ensure_eq_ok, checkedAdd_le_iff hmax]

theorem readSection_eq_ok {i : ℕ} (hi : i < 2 ^ 16) {s : PefSection} :
    readSection data i = ok s ↔ Placed data (0x28 + i * 0x1c) s.encode := by
  have hsize := isizeMax_eq
  rw [readSection, word_eq_of_le (by omega), ok_bind]
  generalize 0x28 + i * 0x1c = o
  simp only [bind_eq_ok, u32At_eq_ok, get_eq_ok, PefSection.encode, placed_append, placed_cons,
    placed_nil, length_u32ToBe, List.length_append, Nat.reduceAdd, Nat.add_assoc, and_true]
  constructor
  · rintro ⟨a, ha, b, hb, c, hc, d, hd, e, he, f, hf, g, hg, h, hh, i, hi, j, hj, hs⟩
    obtain rfl := ok.inj hs
    exact ⟨⟨⟨⟨⟨⟨ha, hb⟩, hc⟩, hd⟩, he⟩, hf⟩, hg, hh, hi, hj⟩
  · rintro ⟨⟨⟨⟨⟨⟨ha, hb⟩, hc⟩, hd⟩, he⟩, hf⟩, hg, hh, hi, hj⟩
    exact ⟨_, ha, _, hb, _, hc, _, hd, _, he, _, hf, _, hg, _, hh, _, hi, _, hj, rfl⟩

theorem readLoaderInfo_eq_ok {lo : ℕ} {l : LoaderInfo} :
    readLoaderInfo data lo = ok l ↔ Placed data lo l.encode := by
  rw [readLoaderInfo]
  simp only [bind_eq_ok, u32At_eq_ok, LoaderInfo.encode, List.flatMap_cons, List.flatMap_nil,
    List.append_nil, placed_append, length_u32ToBe, Nat.reduceAdd, Nat.add_assoc]
  constructor
  · rintro ⟨a, ha, b, hb, c, hc, d, hd, e, he, f, hf, g, hg, h, hh, i, hi, j, hj, k, hk, m, hm,
      n, hn, o, ho, hl⟩
    obtain rfl := ok.inj hl
    exact ⟨ha, hb, hc, hd, he, hf, hg, hh, hi, hj, hk, hm, hn, ho⟩
  · rintro ⟨ha, hb, hc, hd, he, hf, hg, hh, hi, hj, hk, hm, hn, ho⟩
    exact ⟨_, ha, _, hb, _, hc, _, hd, _, he, _, hf, _, hg, _, hh, _, hi, _, hj, _, hk, _, hm,
      _, hn, _, ho, rfl⟩

/-! ## Exports -/

/-- The class and the name of an export, in one word. -/
def PefExport.classAndName (x : PefExport) : UInt32 :=
  UInt32.ofNat (x.cls.toNat * 2 ^ 24 + x.nameOffset.toNat)

/-- An entry of the export table. -/
def PefExport.encode (x : PefExport) : List UInt8 :=
  u32ToBe x.classAndName ++ u32ToBe x.value ++ u16ToBe x.sectionIndex

theorem classAndName_eq {w : UInt32} {x : PefExport} (hcls : x.cls = (w >>> 24).toUInt8)
    (hname : x.nameOffset = w &&& 0x00ffffff) :
    x.nameOffset.toNat < 2 ^ 24 ∧ x.classAndName = w := by
  have hw := w.toNat_lt
  have h24 : UInt32.toNat 24 % 32 = 24 := rfl
  have hoff : x.nameOffset.toNat = w.toNat % 2 ^ 24 := by
    rw [hname, UInt32.toNat_and]
    exact Nat.and_two_pow_sub_one_eq_mod _ 24
  have hclass : x.cls.toNat = w.toNat / 2 ^ 24 := by
    rw [hcls]
    simp only [UInt32.toNat_toUInt8, UInt32.toNat_shiftRight, Nat.shiftRight_eq_div_pow, h24]
    omega
  have hsum : x.cls.toNat * 2 ^ 24 + x.nameOffset.toNat = w.toNat := by
    rw [hoff, hclass]
    omega
  refine ⟨by omega, ?_⟩
  rw [PefExport.classAndName, hsum, UInt32.ofNat_toNat]

theorem classAndName_parts {x : PefExport} (h : x.nameOffset.toNat < 2 ^ 24) :
    (x.classAndName >>> 24).toUInt8 = x.cls ∧ x.classAndName &&& 0x00ffffff = x.nameOffset := by
  have hcls := x.cls.toNat_lt
  have h24 : UInt32.toNat 24 % 32 = 24 := rfl
  have hword : x.classAndName.toNat = x.cls.toNat * 2 ^ 24 + x.nameOffset.toNat := by
    rw [PefExport.classAndName, UInt32.toNat_ofNat']
    exact Nat.mod_eq_of_lt (by omega)
  constructor
  · refine UInt8.toNat_inj.1 ?_
    simp only [UInt32.toNat_toUInt8, UInt32.toNat_shiftRight, Nat.shiftRight_eq_div_pow, h24, hword]
    omega
  · refine UInt32.toNat_inj.1 ?_
    rw [UInt32.toNat_and, hword]
    refine (Nat.and_two_pow_sub_one_eq_mod _ 24).trans ?_
    omega

/-- An export whose entry stands at `e`, with its name among the strings at `strings`. -/
structure PefExport.At (data : List UInt8) (e strings fin : ℕ) (x : PefExport) : Prop where
  entry : Placed data e x.encode
  offset : x.nameOffset.toNat < 2 ^ 24
  name : ∃ bytes : List UInt8, x.name = utf8Lossy bytes ∧ 0 ∉ bytes ∧
    Placed data (strings + x.nameOffset.toNat) (bytes ++ [0]) ∧
    strings + x.nameOffset.toNat + bytes.length ≤ fin

theorem findIdx?_zero_append {bytes rest : List UInt8} (h : 0 ∉ bytes) :
    (bytes ++ 0 :: rest).findIdx? (· = 0) = some bytes.length := by
  induction bytes with
  | nil => simp [List.findIdx?_cons]
  | cons b bytes ih =>
    obtain ⟨hb, hrest⟩ := not_or.1 (mt List.mem_cons.2 h)
    simp [List.findIdx?_cons, Ne.symm hb, ih hrest]

/-- The first zero ends a string. -/
theorem findIdx?_zero_eq_some {tail : List UInt8} {p : ℕ} :
    tail.findIdx? (· = 0) = some p ↔
      0 ∉ tail.take p ∧ tail.take p ++ [0] <+: tail ∧ p < tail.length := by
  constructor
  · intro h
    obtain ⟨hlt, hzero, hfirst⟩ := List.findIdx?_eq_some_iff_getElem.1 h
    have hzero : tail[p] = 0 := of_decide_eq_true hzero
    refine ⟨fun hmem => ?_, ?_, hlt⟩
    · obtain ⟨j, hj, hget⟩ := List.mem_iff_getElem.1 hmem
      have hjp : j < p := (List.length_take ▸ hj).trans_le (min_le_left _ _)
      rw [List.getElem_take] at hget
      exact hfirst j hjp (decide_eq_true hget)
    · rw [← hzero, ← List.take_succ_eq_append_getElem hlt]
      exact List.take_prefix _ _
  · rintro ⟨hno, ⟨rest, hsplit⟩, hlt⟩
    have hlen : (tail.take p).length = p := by
      rw [List.length_take]
      omega
    have hfind := @findIdx?_zero_append (tail.take p) rest hno
    rw [List.append_assoc, List.singleton_append] at hsplit
    rw [hsplit, hlen] at hfind
    exact hfind

variable {lo ll : ℕ} {loader : LoaderInfo}

theorem readExport_eq_ok (hmax : data.length ≤ isizeMax) (hll : lo + ll ≤ data.length)
    {slots keys i : ℕ}
    (he : loader.exportHashOffset.toNat + slots * 4 + keys * 4 + (i + 1) * 10 ≤ ll)
    {x : PefExport} :
    readExport data lo ll loader slots keys i = ok x ↔
      x.At data (lo + loader.exportHashOffset.toNat + slots * 4 + keys * 4 + i * 10)
        (lo + loader.loaderStringsOffset.toNat) (lo + ll) := by
  have hsize := isizeMax_eq
  have hword : wordSize = 2 ^ 64 := rfl
  have hstrings := loader.loaderStringsOffset.toNat_lt
  rw [readExport, word_eq_of_le (by omega), ok_bind]
  generalize lo + loader.exportHashOffset.toNat + slots * 4 + keys * 4 + i * 10 = e
  constructor
  · intro h
    obtain ⟨w, hw, h⟩ := bind_eq_ok.1 h
    obtain ⟨value, hvalue, h⟩ := bind_eq_ok.1 h
    obtain ⟨sectionIndex, hsection, h⟩ := bind_eq_ok.1 h
    dsimp only at h
    obtain ⟨nameAt, hnameAt, h⟩ := bind_eq_ok.1 h
    obtain ⟨v, hv, hnameAt⟩ := Option.bind_eq_some_iff.1 (okOr_eq_ok.1 hnameAt)
    obtain ⟨rfl, -⟩ := checkedAdd_eq_some.1 hv
    obtain ⟨rfl, -⟩ := checkedAdd_eq_some.1 hnameAt
    obtain ⟨u, hlt, h⟩ := bind_eq_ok.1 h
    have hlt := ensure_eq_ok.1 hlt
    obtain ⟨tail, htail, h⟩ := bind_eq_ok.1 h
    rw [slice_eq hlt.le le_rfl, List.take_length] at htail
    obtain rfl := ok.inj htail
    obtain ⟨p, hp, h⟩ := bind_eq_ok.1 h
    obtain ⟨hno, hprefix, hplt⟩ := findIdx?_zero_eq_some.1 (okOr_eq_ok.1 hp)
    rw [List.length_drop] at hplt
    obtain ⟨fin, hfin, h⟩ := bind_eq_ok.1 h
    obtain ⟨-, rfl⟩ := word_eq_ok.1 hfin
    obtain ⟨fin, hfin, h⟩ := bind_eq_ok.1 h
    obtain ⟨-, rfl⟩ := word_eq_ok.1 hfin
    obtain ⟨u', hends, h⟩ := bind_eq_ok.1 h
    have hends := ensure_eq_ok.1 hends
    obtain ⟨name, hname, h⟩ := bind_eq_ok.1 h
    rw [slice_eq (Nat.le_add_right _ _) (by omega), List.drop_take,
      Nat.add_sub_cancel_left] at hname
    obtain rfl := ok.inj hname
    have hx := ok.inj h
    obtain ⟨hoffset, hcls⟩ := classAndName_eq (w := w) (x := x) (by rw [← hx]) (by rw [← hx])
    subst hx
    refine ⟨?_, hoffset, _, rfl, hno, hprefix, ?_⟩
    · rw [PefExport.encode, hcls]
      simp only [placed_append, length_u32ToBe, List.length_append]
      exact ⟨⟨u32At_eq_ok.1 hw, u32At_eq_ok.1 hvalue⟩, u16At_eq_ok.1 hsection⟩
    · dsimp only
      rw [List.length_take]
      omega
  · rintro ⟨hentry, hoffset, bytes, hname, hno, hplaced, hends⟩
    rw [PefExport.encode] at hentry
    simp only [placed_append, length_u32ToBe, List.length_append] at hentry
    obtain ⟨⟨hw, hvalue⟩, hsection⟩ := hentry
    obtain ⟨hcls, hoff⟩ := classAndName_parts hoffset
    have hle := hplaced.le (by simp)
    rw [List.length_append, List.length_singleton] at hle
    have htail : data.drop (lo + loader.loaderStringsOffset.toNat + x.nameOffset.toNat) =
        bytes ++ 0 :: (data.drop (lo + loader.loaderStringsOffset.toNat + x.nameOffset.toNat)).drop
          (bytes.length + 1) := by
      obtain ⟨rest, hrest⟩ := hplaced
      rw [← hrest]
      simp
    refine bind_eq_ok.2 ⟨_, u32At_eq_ok.2 hw, bind_eq_ok.2 ⟨_, u32At_eq_ok.2 hvalue,
      bind_eq_ok.2 ⟨_, u16At_eq_ok.2 hsection, ?_⟩⟩⟩
    dsimp only
    rw [hcls, hoff]
    have hstart : (checkedAdd lo loader.loaderStringsOffset.toNat).bind
        (fun v => checkedAdd v x.nameOffset.toNat) =
          some (lo + loader.loaderStringsOffset.toNat + x.nameOffset.toNat) :=
      Option.bind_eq_some_iff.2 ⟨_, checkedAdd_eq_some.2 ⟨rfl, by omega⟩,
        checkedAdd_eq_some.2 ⟨rfl, by omega⟩⟩
    refine bind_eq_ok.2 ⟨_, okOr_eq_ok.2 hstart, bind_eq_ok.2 ⟨(), ensure_eq_ok.2 (by omega), ?_⟩⟩
    rw [slice_eq (by omega) le_rfl, List.take_length, ok_bind]
    refine bind_eq_ok.2 ⟨bytes.length, okOr_eq_ok.2 ?_, ?_⟩
    · rw [htail]
      exact findIdx?_zero_append hno
    · rw [word_eq_of_le (by omega), ok_bind, word_eq_of_le (by omega), ok_bind]
      refine bind_eq_ok.2 ⟨(), ensure_eq_ok.2 hends, ?_⟩
      rw [slice_eq (Nat.le_add_right _ _) (by omega), ok_bind, List.drop_take,
        Nat.add_sub_cancel_left, htail, List.take_left, ← hname]

/-- The exports of a loader container: the table lies in it. -/
structure ExportsAt (data : List UInt8) (lo ll : ℕ) (loader : LoaderInfo)
    (exports : List PefExport) : Prop where
  length : exports.length = loader.exportedSymbolCount.toNat
  power : loader.exportedSymbolCount ≠ 0 → loader.exportHashTablePower.toNat ≤ 20
  table : loader.exportedSymbolCount ≠ 0 →
    loader.exportHashOffset.toNat + 2 ^ loader.exportHashTablePower.toNat * 4 +
      exports.length * 4 + exports.length * 10 ≤ ll
  entries : ∀ (i : ℕ) (x : PefExport), exports[i]? = some x →
    x.At data (lo + loader.exportHashOffset.toNat + 2 ^ loader.exportHashTablePower.toNat * 4 +
      exports.length * 4 + i * 10) (lo + loader.loaderStringsOffset.toNat) (lo + ll)

theorem parseExports_eq_ok (hmax : data.length ≤ isizeMax) (hll : lo + ll ≤ data.length)
    {exports : List PefExport} :
    parseExports data lo ll loader = ok exports ↔ ExportsAt data lo ll loader exports := by
  have hsize := isizeMax_eq
  have hword : wordSize = 2 ^ 64 := rfl
  have hcount := loader.exportedSymbolCount.toNat_lt
  have hoff := loader.exportHashOffset.toNat_lt
  unfold parseExports
  by_cases hnone : loader.exportedSymbolCount = 0
  · rw [if_pos hnone]
    constructor
    · intro h
      obtain rfl := ok.inj h
      refine ⟨by rw [hnone]; rfl, absurd hnone, absurd hnone, by simp⟩
    · intro h
      have hlen : exports.length = 0 := by rw [h.length, hnone]; rfl
      rw [List.eq_nil_of_length_eq_zero hlen]
  · rw [if_neg hnone]
    dsimp only
    constructor
    · intro h
      obtain ⟨u, hpower, h⟩ := bind_eq_ok.1 h
      have hpower := ensure_eq_ok.1 hpower
      obtain ⟨slotBytes, hslotBytes, h⟩ := bind_eq_ok.1 h
      obtain ⟨-, rfl⟩ := word_eq_ok.1 hslotBytes
      obtain ⟨keyBytes, hkeyBytes, h⟩ := bind_eq_ok.1 h
      obtain ⟨-, rfl⟩ := word_eq_ok.1 hkeyBytes
      obtain ⟨entryBytes, hentryBytes, h⟩ := bind_eq_ok.1 h
      obtain ⟨-, rfl⟩ := word_eq_ok.1 hentryBytes
      obtain ⟨tableEnd, hend, h⟩ := bind_eq_ok.1 h
      obtain ⟨v, hv, hend⟩ := Option.bind_eq_some_iff.1 (okOr_eq_ok.1 hend)
      obtain ⟨rfl, -⟩ := checkedAdd_eq_some.1 hv
      obtain ⟨v, hv, hend⟩ := Option.bind_eq_some_iff.1 hend
      obtain ⟨rfl, -⟩ := checkedAdd_eq_some.1 hv
      obtain ⟨rfl, -⟩ := checkedAdd_eq_some.1 hend
      obtain ⟨u', hfits, h⟩ := bind_eq_ok.1 h
      have hfits := ensure_eq_ok.1 hfits
      obtain ⟨-, -, h⟩ := bind_eq_ok.1 h
      obtain ⟨hlen, hall⟩ := collect_eq_ok.1 h
      refine ⟨hlen, fun _ => hpower, fun _ => by rw [hlen]; exact hfits, ?_⟩
      intro i x hx
      obtain ⟨hi, -⟩ := List.getElem?_eq_some_iff.1 hx
      have hread := hall i x hx
      rw [Nat.zero_add] at hread
      rw [hlen]
      exact (readExport_eq_ok hmax hll (by omega)).1 hread
    · rintro ⟨hlen, hpower, htable, hall⟩
      have hpower := hpower hnone
      have htable := htable hnone
      rw [hlen] at htable hall
      have hend : (checkedAdd loader.exportHashOffset.toNat
          (2 ^ loader.exportHashTablePower.toNat * 4)).bind (fun v =>
            (checkedAdd v (loader.exportedSymbolCount.toNat * 4)).bind fun v =>
              checkedAdd v (loader.exportedSymbolCount.toNat * 10)) =
          some (loader.exportHashOffset.toNat + 2 ^ loader.exportHashTablePower.toNat * 4 +
            loader.exportedSymbolCount.toNat * 4 + loader.exportedSymbolCount.toNat * 10) :=
        Option.bind_eq_some_iff.2 ⟨_, checkedAdd_eq_some.2 ⟨rfl, by omega⟩,
          Option.bind_eq_some_iff.2 ⟨_, checkedAdd_eq_some.2 ⟨rfl, by omega⟩,
            checkedAdd_eq_some.2 ⟨rfl, by omega⟩⟩⟩
      refine bind_eq_ok.2 ⟨(), ensure_eq_ok.2 hpower, ?_⟩
      rw [word_eq_of_le (by omega), ok_bind, word_eq_of_le (by omega), ok_bind,
        word_eq_of_le (by omega), ok_bind, hend]
      refine bind_eq_ok.2 ⟨_, okOr_eq_ok.2 rfl, bind_eq_ok.2 ⟨(), ensure_eq_ok.2 htable, ?_⟩⟩
      rw [withCapacity_eq (by omega), ok_bind, collect_eq_ok]
      refine ⟨hlen, fun i x hx => ?_⟩
      obtain ⟨hi, -⟩ := List.getElem?_eq_some_iff.1 hx
      rw [Nat.zero_add]
      exact (readExport_eq_ok hmax hll (by omega)).2 (hall i x hx)

end

/-! ## Containers -/

/-- **The format** of a container: what stands where in its file. -/
structure Container.Format (c : Container) : Prop where
  magic : Placed c.data.bytes 0 pefMagic
  version : Placed c.data.bytes 0x0c (u32ToBe c.containerVersion)
  timestamp : Placed c.data.bytes 0x10 (u32ToBe c.timestamp)
  currentVersion : Placed c.data.bytes 0x1c (u32ToBe c.currentVersion)
  sectionCount : Placed c.data.bytes 0x20 (u16ToBe c.sectionCount)
  header : 0x28 + c.sections.length * 0x1c ≤ c.data.bytes.length
  sections_length : c.sections.length = c.sectionCount.toNat
  sections : ∀ (i : ℕ) (s : PefSection), c.sections[i]? = some s →
    Placed c.data.bytes (0x28 + i * 0x1c) s.encode
  loader : ∃ s, c.sections.find? (·.kind = 4) = some s ∧
    c.loaderContainer.length = s.containerLength.toNat ∧
    s.containerOffset.toNat + s.containerLength.toNat ≤ c.data.bytes.length ∧
    Placed c.data.bytes s.containerOffset.toNat c.loaderContainer ∧
    Placed c.data.bytes s.containerOffset.toNat c.loader.encode ∧
    ExportsAt c.data.bytes s.containerOffset.toNat s.containerLength.toNat c.loader c.exports

theorem LoaderInfo.length_encode (l : LoaderInfo) : l.encode.length = 0x38 := rfl

/-- **Parsing is exact**: it succeeds with a container if and only if the file has its format. -/
theorem Container.parse_eq_ok_iff (data : Slice) (c : Container) :
    Container.parse data = ok c ↔ c.data = data ∧ c.Format := by
  have hsize := isizeMax_eq
  have hmax := data.length_le
  unfold Container.parse
  dsimp only
  constructor
  · intro h
    obtain ⟨u, hheader, h⟩ := bind_eq_ok.1 h
    have hheader := ensure_eq_ok.1 hheader
    rw [slice_eq (by omega) (by omega), ok_bind] at h
    obtain ⟨u, hmagic, h⟩ := bind_eq_ok.1 h
    have hmagic := ensure_eq_ok.1 hmagic
    obtain ⟨containerVersion, hversion, h⟩ := bind_eq_ok.1 h
    obtain ⟨timestamp, htimestamp, h⟩ := bind_eq_ok.1 h
    obtain ⟨currentVersion, hcurrent, h⟩ := bind_eq_ok.1 h
    obtain ⟨sectionCount, hcount, h⟩ := bind_eq_ok.1 h
    have hlt := sectionCount.toNat_lt
    rw [word_eq_of_le (by omega), ok_bind] at h
    obtain ⟨u, htable, h⟩ := bind_eq_ok.1 h
    have htable := (need_eq_ok hmax).1 htable
    rw [withCapacity_eq (by omega), ok_bind] at h
    obtain ⟨sections, hsections, h⟩ := bind_eq_ok.1 h
    obtain ⟨hlen, hall⟩ := collect_eq_ok.1 hsections
    obtain ⟨loaderSec, hloaderSec, h⟩ := bind_eq_ok.1 h
    have hloaderSec := okOr_eq_ok.1 hloaderSec
    obtain ⟨u, hfits, h⟩ := bind_eq_ok.1 h
    have hfits := (need_eq_ok hmax).1 hfits
    obtain ⟨u, hinfo, h⟩ := bind_eq_ok.1 h
    obtain ⟨loader, hloader, h⟩ := bind_eq_ok.1 h
    rw [word_eq_of_le (by omega), ok_bind, slice_eq (Nat.le_add_right _ _) hfits, ok_bind,
      List.drop_take, Nat.add_sub_cancel_left] at h
    obtain ⟨exports, hexports, h⟩ := bind_eq_ok.1 h
    obtain rfl := ok.inj h
    refine ⟨rfl, ?_, u32At_eq_ok.1 hversion, u32At_eq_ok.1 htimestamp, u32At_eq_ok.1 hcurrent,
      u16At_eq_ok.1 hcount, by dsimp only; omega, hlen, ?_, ?_⟩
    · exact placed_iff_slice.2 hmagic
    · intro i s hs
      obtain ⟨hi, -⟩ := List.getElem?_eq_some_iff.1 hs
      have hread := hall i s hs
      rw [Nat.zero_add] at hread
      exact (readSection_eq_ok (by dsimp only at hi; omega)).1 hread
    · refine ⟨loaderSec, hloaderSec, ?_, hfits, List.take_prefix _ _,
        readLoaderInfo_eq_ok.1 hloader, (parseExports_eq_ok hmax hfits).1 hexports⟩
      rw [List.length_take, List.length_drop]
      omega
  · rintro ⟨rfl, hmagic, hversion, htimestamp, hcurrent, hcount, hheader, hlen, hall, loaderSec,
      hloaderSec, hloaderLen, hfits, hcontainer, hloader, hexports⟩
    have hlt := c.sectionCount.toNat_lt
    have hinfo := hloader.le (by simp [LoaderInfo.encode, u32ToBe])
    rw [LoaderInfo.length_encode] at hinfo
    refine bind_eq_ok.2 ⟨(), ensure_eq_ok.2 (by omega), ?_⟩
    rw [slice_eq (by omega) (by omega), ok_bind]
    refine bind_eq_ok.2 ⟨(), ensure_eq_ok.2 (placed_iff_slice.1 hmagic), ?_⟩
    refine bind_eq_ok.2 ⟨_, u32At_eq_ok.2 hversion, bind_eq_ok.2 ⟨_, u32At_eq_ok.2 htimestamp,
      bind_eq_ok.2 ⟨_, u32At_eq_ok.2 hcurrent, bind_eq_ok.2 ⟨_, u16At_eq_ok.2 hcount, ?_⟩⟩⟩⟩
    rw [word_eq_of_le (by omega), ok_bind]
    refine bind_eq_ok.2 ⟨(), (need_eq_ok hmax).2 (by omega), ?_⟩
    rw [withCapacity_eq (by omega), ok_bind]
    have hsections : collect (readSection c.data.bytes) 0 c.sectionCount.toNat = ok c.sections := by
      refine collect_eq_ok.2 ⟨hlen, fun i s hs => ?_⟩
      obtain ⟨hi, -⟩ := List.getElem?_eq_some_iff.1 hs
      rw [Nat.zero_add]
      exact (readSection_eq_ok (by omega)).2 (hall i s hs)
    refine bind_eq_ok.2 ⟨_, hsections, bind_eq_ok.2 ⟨_, okOr_eq_ok.2 hloaderSec,
      bind_eq_ok.2 ⟨(), (need_eq_ok hmax).2 hfits, bind_eq_ok.2 ⟨(), (need_eq_ok hmax).2 hinfo,
        bind_eq_ok.2 ⟨_, readLoaderInfo_eq_ok.2 hloader, ?_⟩⟩⟩⟩⟩
    have hslice : (c.data.bytes.drop loaderSec.containerOffset.toNat).take
        loaderSec.containerLength.toNat = c.loaderContainer := by
      rw [← hloaderLen]
      exact (List.prefix_iff_eq_take.1 hcontainer).symm
    rw [word_eq_of_le (by omega), ok_bind, slice_eq (Nat.le_add_right _ _) hfits, ok_bind,
      List.drop_take, Nat.add_sub_cancel_left, hslice]
    exact bind_eq_ok.2 ⟨_, (parseExports_eq_ok hmax hfits).2 hexports, rfl⟩

end Usbmidi9
