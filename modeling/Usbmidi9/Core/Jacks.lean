/-
  USBMIDI9 — the jacks of a topology (`um9_ms_parse`).

  `Desc.jack` is the jack that the code makes of one descriptor;
  `um9MsParse_jacks` says that the topology has those of the MIDIStreaming
  interface, in order, as far as they fit.

  A MIDI OUT jack descriptor lists its pins as interleaved pairs
  (baSourceID(i), BaSourcePin(i)) from offset 6 on (`Desc.baSourceID`).  The code
  reads one byte after the other; `jackSourcesPerTable_iff` says when that makes
  no difference.
-/
import Usbmidi9.Core.Ports
import Usbmidi9.Core.Walk

namespace Usbmidi9

/-! ## Jack descriptors -/

namespace Desc

/-- A MIDI IN and a MIDI OUT jack descriptor. -/
def InJack (d : Desc) : Prop := d.btype = dtCsInterface ∧ d.u8 2 = msMidiInJack ∧ 6 ≤ d.blen
def OutJack (d : Desc) : Prop := d.btype = dtCsInterface ∧ d.u8 2 = msMidiOutJack ∧ 9 ≤ d.blen

instance : DecidablePred InJack := fun _ => inferInstanceAs (Decidable (_ ∧ _))
instance : DecidablePred OutJack := fun _ => inferInstanceAs (Decidable (_ ∧ _))

/-- The sources that the code reads: one byte each. -/
def sourceIds (d : Desc) : List ℕ :=
  (List.range (min (min (d.u8 5) um9MaxJackSources) (d.blen - 7))).map fun i => d.u8 (6 + i)

/-- The jack that the code makes of a descriptor. -/
def jack (d : Desc) : Option Um9Jack :=
  if d.InJack then some ⟨d.u8 4, d.u8 3, .in_, []⟩
  else if d.OutJack then some ⟨d.u8 4, d.u8 3, .out, d.sourceIds⟩
  else none

/-- The source of pin `i` in the table of the MIDI OUT jack descriptor. -/
def baSourceID (d : Desc) (i : ℕ) : ℕ := d.u8 (6 + 2 * i)

theorem jack_of_outJack {d : Desc} (h : d.OutJack) :
    d.jack = some ⟨d.u8 4, d.u8 3, .out, d.sourceIds⟩ := by
  have hin : ¬d.InJack := by
    rintro ⟨-, hsubtype, -⟩
    rw [h.2.1] at hsubtype
    exact absurd hsubtype (by decide)
  rw [jack, if_neg hin, if_pos h]

/-- A jack comes from one of the two descriptors. -/
theorem isSome_jack (d : Desc) : d.jack.isSome = decide (d.InJack ∨ d.OutJack) := by
  unfold jack
  split_ifs with hin hout
  · simp [hin]
  · simp [hout]
  · simp [hin, hout]

end Desc

/-! ## The jacks that are recorded -/

/-- Before the MIDIStreaming interface no jack is recorded. -/
theorem um9MsStepOutside_jacks (st : MsScan) (it : DescIter) :
    (um9MsStepOutside st it).out.jacks = st.out.jacks := by
  unfold um9MsStepOutside
  split_ifs <;> rfl

theorem um9MsStepCsEndpoint_jacks (st : MsScan) (it : DescIter) :
    (um9MsStepCsEndpoint st it).jacks = st.out.jacks := by
  unfold um9MsStepCsEndpoint um9MsAddEndpoint
  split_ifs <;> rfl

theorem um9MsStepCsInterface_jacks {out : Um9MsInfo} (hlen : out.jacks.length ≤ um9MaxJacks)
    {d : Desc} (hd : d.btype = dtCsInterface) :
    (um9MsStepCsInterface out d.iter).jacks =
      (out.jacks ++ d.jack.toList).take um9MaxJacks := by
  have hu8 := d.um9DescU8_iter
  have hblen : d.iter.blen = d.blen := rfl
  have hids : readIds d.iter 6 (min (min (d.u8 5) um9MaxJackSources) (d.blen - 7)) =
      d.sourceIds := by
    simp only [readIds, hu8]
    rfl
  have hadd : ∀ dir type id ids, (um9MsAddJack out dir type id ids).jacks =
      (out.jacks ++ [Um9Jack.mk id type dir ids]).take um9MaxJacks := by
    intro dir type id ids
    unfold um9MsAddJack
    by_cases hfull : um9MaxJacks ≤ out.jacks.length
    · rw [if_pos hfull, List.take_append_of_le_length hfull, List.take_of_length_le hlen]
    · rw [if_neg hfull,
        List.take_of_length_le (by rw [List.length_append, List.length_singleton]; omega)]
  have hnone : out.jacks = (out.jacks ++ []).take um9MaxJacks := by
    rw [List.append_nil, List.take_of_length_le hlen]
  unfold um9MsStepCsInterface Desc.jack Desc.InJack Desc.OutJack
  simp only [hu8, hblen, hids, hd, true_and]
  by_cases hheader : d.u8 2 = msHeader ∧ 7 ≤ d.blen
  · have hin : ¬(d.u8 2 = msMidiInJack ∧ 6 ≤ d.blen) := by simp [hheader.1]
    have hout : ¬(d.u8 2 = msMidiOutJack ∧ 9 ≤ d.blen) := by simp [hheader.1]
    rw [if_pos hheader, if_neg hin, if_neg hout]
    exact hnone
  · rw [if_neg hheader]
    split_ifs with hin hout
    · exact hadd ..
    · exact hadd ..
    · exact hnone

/-- **One descriptor of the MIDIStreaming interface**: its jack is recorded, as long
    as there is room. -/
theorem um9MsStep_jacks {st : MsScan} (h : st.inMs = true)
    (hlen : st.out.jacks.length ≤ um9MaxJacks) (d : Desc) :
    match um9MsStep st d.iter with
    | none => d.Ends
    | some st' => ¬d.Ends ∧ st'.inMs = true ∧
        st'.out.jacks = (st.out.jacks ++ d.jack.toList).take um9MaxJacks := by
  have hbtype : d.iter.btype = d.btype := rfl
  have hother : d.btype ≠ dtCsInterface →
      st.out.jacks = (st.out.jacks ++ d.jack.toList).take um9MaxJacks := by
    intro hne
    rw [Desc.jack, if_neg fun hin => hne hin.1, if_neg fun hout => hne hout.1, Option.toList_none,
      List.append_nil, List.take_of_length_le hlen]
  unfold um9MsStep
  rw [if_neg (by simp [h])]
  simp only [hbtype]
  split_ifs with hends hep hci hce
  · exact hends
  · exact ⟨hends, h, hother (by rw [hep.1]; decide)⟩
  · exact ⟨hends, h, um9MsStepCsInterface_jacks hlen hci⟩
  · exact ⟨hends, h, (um9MsStepCsEndpoint_jacks st d.iter).trans (hother hci)⟩
  · exact ⟨hends, h, hother hci⟩

theorem msScan_inside_jacks {st : MsScan} (h : st.inMs = true)
    (hlen : st.out.jacks.length ≤ um9MaxJacks) (ds : List Desc) :
    (msScan st ds).1.out.jacks =
      (st.out.jacks ++ (ds.takeWhile fun d => ¬d.Ends).filterMap Desc.jack).take um9MaxJacks := by
  induction ds generalizing st with
  | nil =>
    rw [List.takeWhile_nil, List.filterMap_nil, List.append_nil, List.take_of_length_le hlen]
    rfl
  | cons d ds ih =>
    have hstep := um9MsStep_jacks h hlen d
    unfold msScan
    rcases hs : um9MsStep st d.iter with _ | st'
    · rw [hs] at hstep
      have hnone : (d :: ds).takeWhile (fun d => ¬d.Ends) = [] := by simp [hstep]
      rw [hnone, List.filterMap_nil, List.append_nil, List.take_of_length_le hlen]
    · rw [hs] at hstep
      obtain ⟨hends, hin', hjacks⟩ := hstep
      have hsome : (d :: ds).takeWhile (fun d => ¬d.Ends) =
          d :: ds.takeWhile fun d => ¬d.Ends := by simp [hends]
      have hlen' : st'.out.jacks.length ≤ um9MaxJacks := by
        rw [hjacks]
        exact List.length_take_le _ _
      rw [hsome, ih hin' hlen', hjacks, take_append_take, List.append_assoc]
      congr 2
      cases hd : d.jack with
      | none => rw [List.filterMap_cons_none hd]; rfl
      | some jack => rw [List.filterMap_cons_some hd]; rfl

/-- **The jacks of a topology** are those of the MIDIStreaming interface, as far as
    they fit. -/
theorem um9MsParse_jacks (bytes : List UInt8) :
    (um9MsParse (some bytes) bytes.length).1.jacks =
      ((msDescriptors (descriptors bytes).1).filterMap Desc.jack).take um9MaxJacks := by
  obtain ⟨hout, -⟩ := um9MsLoop_spec (um9DescIterInit_before bytes) (Nat.lt_succ_self _)
    ⟨.zero, false, 0, 0, 0⟩
  have hstart : (⟨.zero, false, 0, 0, 0⟩ : MsScan).inMs = false := rfl
  have hkeep : ∀ (st : MsScan) (d : Desc), st.out.jacks = [] →
      (um9MsStepOutside st d.iter).out.jacks = [] := fun st d hst =>
    (um9MsStepOutside_jacks st d.iter).trans hst
  obtain ⟨st, hscan, hjacks, hin⟩ := msScan_outside hkeep hstart rfl (descriptors bytes).1
  have hspec : (msScan st (afterMsInterface (descriptors bytes).1)).1.out.jacks =
      ((msDescriptors (descriptors bytes).1).filterMap Desc.jack).take um9MaxJacks := by
    by_cases hafter : afterMsInterface (descriptors bytes).1 = []
    · rw [msDescriptors, hafter]
      exact hjacks
    · have hinside := msScan_inside_jacks (hin hafter) (by rw [hjacks]; exact Nat.zero_le _)
        (afterMsInterface (descriptors bytes).1)
      rwa [hjacks, List.nil_append] at hinside
  rw [← hspec, ← hscan, ← hout]
  rfl

/-! ## The table of the MIDI OUT jack descriptor -/

/-- The jack descriptors among others. -/
def jackDescriptors (ds : List Desc) : List Desc := ds.filter fun d => d.InJack ∨ d.OutJack

/-- Among the first sixteen jack descriptors of the MIDIStreaming interface, number `k`
    is a MIDI OUT jack descriptor with room for its pairs of pins. -/
structure OutJackAt (bytes : List UInt8) (k : ℕ) (d : Desc) : Prop where
  lt : k < um9MaxJacks
  get : (jackDescriptors (msDescriptors (descriptors bytes).1))[k]? = some d
  btype : d.btype = dtCsInterface
  subtype : d.u8 2 = msMidiOutJack
  pins : 1 ≤ d.u8 5
  fits : 7 + 2 * d.u8 5 ≤ d.blen

theorem OutJackAt.outJack {bytes : List UInt8} {k : ℕ} {d : Desc} (h : OutJackAt bytes k d) :
    d.OutJack := by
  have hpins := h.pins
  have hfits := h.fits
  exact ⟨h.btype, h.subtype, by omega⟩

/-- **What the table promises**: the sources of the jack are the source fields of the
    pairs, eight at most. -/
def JackSourcesPerTable (bytes : List UInt8) : Prop :=
  ∀ k d, OutJackAt bytes k d →
    ∃ jack, (um9MsParse (some bytes) bytes.length).1.jacks[k]? = some jack ∧
      jack.sourceIds.length = min (d.u8 5) um9MaxJackSources ∧
        ∀ i < jack.sourceIds.length, jack.sourceIds[i]? = some (d.baSourceID i)

theorem getElem?_filterMap {α β : Type*} (f : α → Option β) (l : List α) (k : ℕ) :
    (l.filterMap f)[k]? = ((l.filter fun a => (f a).isSome)[k]?).bind f := by
  induction l generalizing k with
  | nil => rfl
  | cons a l ih =>
    cases ha : f a with
    | none => rw [List.filterMap_cons_none ha, List.filter_cons_of_neg (by simp [ha]), ih]
    | some b =>
      rw [List.filterMap_cons_some ha, List.filter_cons_of_pos (by simp [ha])]
      cases k with
      | zero => simp [ha]
      | succ k => exact ih k

/-- The jack of a MIDI OUT jack descriptor has the bytes that follow one another. -/
theorem um9MsParse_outJack {bytes : List UInt8} {k : ℕ} {d : Desc} (h : OutJackAt bytes k d) :
    (um9MsParse (some bytes) bytes.length).1.jacks[k]? =
        some ⟨d.u8 4, d.u8 3, .out, d.sourceIds⟩ ∧
      d.sourceIds = (List.range (min (d.u8 5) um9MaxJackSources)).map fun i => d.u8 (6 + i) := by
  have hget := h.get
  have hfilter : jackDescriptors = List.filter fun d => d.jack.isSome := by
    funext ds
    simp only [jackDescriptors, Desc.isSome_jack]
  rw [hfilter] at hget
  constructor
  · rw [um9MsParse_jacks, List.getElem?_take_of_lt h.lt, getElem?_filterMap, hget,
      Option.bind_some, Desc.jack_of_outJack h.outJack]
  · have hfits := h.fits
    rw [Desc.sourceIds, Nat.min_eq_left (by omega)]

/-- **The sources agree with the table** exactly where reading bytes and reading pairs
    give the same: for one pin they always do. -/
theorem jackSourcesPerTable_iff (bytes : List UInt8) :
    JackSourcesPerTable bytes ↔
      ∀ k d, OutJackAt bytes k d → ∀ i < min (d.u8 5) um9MaxJackSources,
        d.u8 (6 + i) = d.u8 (6 + 2 * i) := by
  constructor
  · intro h k d hd i hi
    obtain ⟨hjack, hids⟩ := um9MsParse_outJack hd
    obtain ⟨jack, hget, hlen, hsource⟩ := h k d hd
    obtain rfl := Option.some.inj (hjack.symm.trans hget)
    have hi' := hsource i (by rw [hlen]; exact hi)
    simp only [hids, List.getElem?_map, List.getElem?_range hi, Option.map_some,
      Option.some.injEq] at hi'
    exact hi'
  · intro h k d hd
    obtain ⟨hjack, hids⟩ := um9MsParse_outJack hd
    refine ⟨_, hjack, by simp [hids], ?_⟩
    intro i hi
    rw [hids, List.length_map, List.length_range] at hi
    simp only [hids, List.getElem?_map, List.getElem?_range hi, Option.map_some]
    rw [h k d hd i hi]
    rfl

/-- A MIDIStreaming interface with one MIDI OUT jack: pin 1 comes from output pin 1 of
    jack 10, pin 2 from output pin 1 of jack 20. -/
def twoPinInterface : Desc := ⟨[9, 4, 1, 0, 0, 1, 3, 0, 0], by decide, by decide⟩
def twoPinJack : Desc := ⟨[11, 0x24, 3, 1, 5, 2, 10, 1, 20, 1, 0], by decide, by decide⟩

/-- The second source is 1, which is the pin of the first one. -/
theorem not_jackSourcesPerTable_twoPin :
    ¬JackSourcesPerTable (twoPinInterface.bytes ++ twoPinJack.bytes) := by
  have hds : (descriptors (twoPinInterface.bytes ++ twoPinJack.bytes)).1 =
      [twoPinInterface, twoPinJack] := by
    have hall := descriptors_append [twoPinInterface, twoPinJack] []
    have hnil : descriptors [] = ([], false) := descriptors_none rfl
    rw [hnil, List.append_nil, List.append_nil] at hall
    exact congrArg Prod.fst hall
  have hat : OutJackAt (twoPinInterface.bytes ++ twoPinJack.bytes) 0 twoPinJack := by
    refine ⟨by decide, ?_, by decide, by decide, by decide, by decide⟩
    rw [hds]
    rfl
  intro h
  obtain ⟨hjack, -⟩ := um9MsParse_outJack hat
  obtain ⟨jack, hget, -, hsource⟩ := h 0 twoPinJack hat
  obtain rfl := Option.some.inj (hjack.symm.trans hget)
  exact absurd (hsource 1 (by decide)) (by decide)

end Usbmidi9
