/-
  USBMIDI9 — walking a whole descriptor buffer (`um9_desc_iter_next` again and
  again).

  `descWalk` is the walker after a number of calls.  `descriptors_tile` cuts a
  buffer into its descriptors and what they leave, without the walker;
  `um9DescIterNext_tiles` says that the walker visits exactly these, with the error
  that the rest calls for.
-/
import Usbmidi9.Core.Descriptors

namespace Usbmidi9

/-! ## Cutting a buffer -/

namespace Desc

theorem bytes_injective {d e : Desc} (h : d.bytes = e.bytes) : d = e := by
  cases d
  cases e
  congr

/-- A buffer that begins with a well-formed descriptor. -/
theorem ofBytes?_append (d : Desc) (tail : List UInt8) : ofBytes? (d.bytes ++ tail) = some d := by
  have htwo := d.two_le
  have hfirst : ((d.bytes ++ tail).getD 0 0).toNat = d.bytes.length := by
    rw [← d.length_eq, List.getD_append _ _ _ _ (by omega)]
  unfold ofBytes?
  rw [dif_pos (by rw [hfirst, List.length_append]; omega)]
  refine congrArg some (bytes_injective ?_)
  show (d.bytes ++ tail).take _ = d.bytes
  rw [hfirst, List.take_left]

end Desc

theorem descriptors_append (ds : List Desc) (rest : List UInt8) :
    descriptors (ds.flatMap Desc.bytes ++ rest) =
      (ds ++ (descriptors rest).1, (descriptors rest).2) := by
  induction ds with
  | nil => rfl
  | cons d ds ih =>
    rw [List.flatMap_cons, List.append_assoc, descriptors_some (Desc.ofBytes?_append d _)]
    have hdrop : (d.bytes ++ (ds.flatMap Desc.bytes ++ rest)).drop d.blen =
        ds.flatMap Desc.bytes ++ rest := List.drop_left
    rw [hdrop, ih]
    rfl

/-- **The descriptors of a buffer tile it**, up to where none begins. -/
theorem descriptors_tile (bytes : List UInt8) :
    ∃ rest, bytes = (descriptors bytes).1.flatMap Desc.bytes ++ rest ∧
      Desc.ofBytes? rest = none := by
  induction bytes using descriptors.induct with
  | case1 bytes d hd _ ih =>
    obtain ⟨rest, hrest, hnone⟩ := ih
    obtain ⟨-, -, -, hbytes⟩ := Desc.ofBytes?_eq_some hd
    refine ⟨rest, ?_, hnone⟩
    rw [descriptors_some hd, List.flatMap_cons, List.append_assoc, ← hrest, hbytes,
      List.take_append_drop]
  | case2 bytes hd =>
    refine ⟨bytes, ?_, hd⟩
    rw [descriptors_none hd]
    rfl
/-! ## Walking a whole buffer -/

/-- The walker after `n` calls of `um9_desc_iter_next`. -/
def descWalk (it : DescIter) : ℕ → DescIter
  | 0 => it
  | n + 1 => (um9DescIterNext (descWalk it n)).1

/-- The error of a walk that stops before `rest`. -/
def DescErr.ofRest (rest : List UInt8) : DescErr :=
  if rest.length = 0 then .none
  else if 2 ≤ rest.length ∧ (rest.getD 0 0).toNat < 2 then .zeroLen
  else .truncated

/-- What every call leaves: the current descriptor ends at the position, which is in
    the buffer. -/
structure DescIter.Inside (it : DescIter) (bytes : List UInt8) : Prop where
  buf : it.buf = some bytes
  len : it.len = bytes.length
  pos : it.off + it.blen = it.pos
  pos_le : it.pos ≤ bytes.length

/-- **What a call can do**: it stands at the next descriptor, or it returns 0 and
    changes the error at most. -/
theorem um9DescIterNext_cases (it : DescIter) :
    (∃ buf blen, it.buf = some buf ∧ blen = (buf.getD it.pos 0).toNat ∧ 2 ≤ blen ∧
      it.pos + blen ≤ it.len ∧ it.err = .none ∧
      um9DescIterNext it =
        ({ it with
            off := it.pos
            blen := blen
            btype := (buf.getD (it.pos + 1) 0).toNat
            pos := it.pos + blen }, true)) ∨
    ∃ e, um9DescIterNext it = ({ it with err := e }, false) ∧ (e = .none → it.err = .none) := by
  obtain ⟨buf, len, pos, off, blen, btype, err⟩ := it
  by_cases herr : err = .none
  · subst herr
    rcases buf with _ | buf
    · right
      by_cases hpos : pos < len
      · exact ⟨.truncated, if_pos hpos, fun _ => rfl⟩
      · exact ⟨.none, if_neg hpos, fun _ => rfl⟩
    · unfold um9DescIterNext
      simp only [ne_eq, not_true_eq_false, if_false]
      split_ifs with hend htwo hzero hlong
      · exact .inr ⟨.none, rfl, fun _ => trivial⟩
      · exact .inr ⟨.truncated, rfl, fun _ => trivial⟩
      · exact .inr ⟨.zeroLen, rfl, fun _ => trivial⟩
      · exact .inr ⟨.truncated, rfl, fun _ => trivial⟩
      · exact .inl ⟨buf, _, rfl, rfl, by omega, by omega, trivial, rfl⟩
  · exact .inr ⟨err, if_pos herr, fun h => absurd h herr⟩

theorem um9DescIterNext_inside {it : DescIter} {bytes : List UInt8} (h : it.Inside bytes) :
    (um9DescIterNext it).1.Inside bytes := by
  obtain ⟨hbuf, hlen, hpos, hle⟩ := h
  rcases um9DescIterNext_cases it with ⟨buf, blen, -, -, -, hfits, -, hnext⟩ | ⟨e, hnext, -⟩
  · rw [hnext]
    exact ⟨hbuf, hlen, rfl, hlen ▸ hfits⟩
  · rw [hnext]
    exact ⟨hbuf, hlen, hpos, hle⟩

theorem descWalk_inside (bytes : List UInt8) (n : ℕ) :
    (descWalk (um9DescIterInit (some bytes) bytes.length) n).Inside bytes := by
  induction n with
  | zero => exact ⟨rfl, rfl, rfl, Nat.zero_le _⟩
  | succ n ih => exact um9DescIterNext_inside ih

/-- **The field readers stay inside the current descriptor**, which is inside the
    buffer. -/
theorem DescIter.Inside.um9DescU8_eq {it : DescIter} {bytes : List UInt8} (h : it.Inside bytes)
    (relOff : ℕ) :
    (it.blen ≤ relOff → um9DescU8 it relOff = 0) ∧
      (relOff < it.blen → ∃ hin : it.off + relOff < bytes.length,
        um9DescU8 it relOff = bytes[it.off + relOff].toNat) := by
  have hpos := h.pos
  have hle := h.pos_le
  unfold um9DescU8
  rw [h.buf]
  constructor
  · intro hout
    exact if_pos hout
  · intro hlt
    have hin : it.off + relOff < bytes.length := by omega
    refine ⟨hin, ?_⟩
    simp only [if_neg (Nat.not_le.2 hlt)]
    rw [List.getD_eq_getElem _ _ hin]

theorem DescIter.Inside.um9DescU16le_eq {it : DescIter} {bytes : List UInt8}
    (h : it.Inside bytes) (relOff : ℕ) :
    (it.blen ≤ relOff + 1 → um9DescU16le it relOff = 0) ∧
      (relOff + 1 < it.blen → ∃ hin : it.off + relOff + 1 < bytes.length,
        um9DescU16le it relOff =
          bytes[it.off + relOff].toNat ||| (bytes[it.off + relOff + 1].toNat <<< 8)) := by
  have hpos := h.pos
  have hle := h.pos_le
  unfold um9DescU16le
  rw [h.buf]
  constructor
  · intro hout
    exact if_pos (Or.inr hout)
  · intro hlt
    have hin : it.off + relOff + 1 < bytes.length := by omega
    refine ⟨hin, ?_⟩
    simp only [if_neg (show ¬(it.blen ≤ relOff ∨ it.blen ≤ relOff + 1) by omega)]
    rw [List.getD_eq_getElem _ _ hin, List.getD_eq_getElem _ _ (by omega)]

/-- A descriptor that is visited begins where the one before it ended. -/
theorem um9DescIterNext_off {it : DescIter} (h : (um9DescIterNext it).2 = true) :
    (um9DescIterNext it).1.off = it.pos := by
  rcases um9DescIterNext_cases it with ⟨buf, blen, -, -, -, -, -, hnext⟩ | ⟨e, hnext, -⟩
  · rw [hnext]
  · rw [hnext] at h
    exact absurd h Bool.false_ne_true

/-- A call that returns 0 is followed by calls that do the same. -/
theorem um9DescIterNext_ended {it : DescIter} (h : (um9DescIterNext it).2 = false) :
    um9DescIterNext (um9DescIterNext it).1 = ((um9DescIterNext it).1, false) := by
  rcases um9DescIterNext_cases it with ⟨buf, blen, -, -, -, -, -, hnext⟩ | ⟨e, hnext, herr⟩
  · rw [hnext] at h
    exact absurd h.symm Bool.false_ne_true
  · by_cases he : e = .none
    · have hsame : (um9DescIterNext it).1 = it := by rw [hnext, he, ← herr he]
      rw [hsame]
      exact Prod.ext hsame h
    · rw [hnext, um9DescIterNext]
      exact if_pos he

/-- The call that finds no descriptor. -/
theorem um9DescIterNext_stop {it : DescIter} {rest : List UInt8} (h : it.Before rest)
    (hrest : Desc.ofBytes? rest = none) :
    (um9DescIterNext it).2 = false ∧ (um9DescIterNext it).1.err = DescErr.ofRest rest := by
  obtain ⟨herr, buf, hbuf, hlen, hpos, rfl⟩ := h
  have hget : (buf.drop it.pos).getD 0 0 = buf.getD it.pos 0 := by
    rw [List.getD_eq_getElem?_getD, List.getElem?_drop, ← List.getD_eq_getElem?_getD, Nat.add_zero]
  have hbad := Desc.ofBytes?_eq_none hrest
  rw [hget, List.length_drop] at hbad
  unfold um9DescIterNext DescErr.ofRest
  rw [if_neg (not_not.2 herr), hbuf, hget, List.length_drop]
  simp only [hlen]
  split_ifs <;> first | exact ⟨rfl, herr⟩ | exact ⟨rfl, rfl⟩ | omega

/-- The walker after the first `n` of the descriptors `ds`. -/
theorem descWalk_before {it : DescIter} {ds : List Desc} {rest : List UInt8}
    (h : it.Before (ds.flatMap Desc.bytes ++ rest)) {n : ℕ} (hn : n ≤ ds.length) :
    (descWalk it n).Before ((ds.drop n).flatMap Desc.bytes ++ rest) ∧
      (descWalk it n).pos = it.pos + ((ds.take n).flatMap Desc.bytes).length := by
  induction n with
  | zero => exact ⟨h, rfl⟩
  | succ n ih =>
    obtain ⟨hbefore, hpos⟩ := ih (by omega)
    rw [List.drop_eq_getElem_cons hn, List.flatMap_cons, List.append_assoc] at hbefore
    have hstep := um9DescIterNext_spec hbefore
    rw [Desc.ofBytes?_append] at hstep
    obtain ⟨hmore, hat, hnext⟩ := hstep
    have hdrop : (ds[n].bytes ++ ((ds.drop (n + 1)).flatMap Desc.bytes ++ rest)).drop ds[n].blen =
        (ds.drop (n + 1)).flatMap Desc.bytes ++ rest := List.drop_left
    rw [hdrop] at hnext
    refine ⟨hnext, ?_⟩
    have hend : (um9DescIterNext (descWalk it n)).1.pos = (descWalk it n).pos + ds[n].blen := by
      rw [← hat.blen]
      rcases um9DescIterNext_cases (descWalk it n) with ⟨_, _, -, -, -, -, -, hn⟩ | ⟨_, hn, -⟩
      · rw [hn]
      · rw [hn] at hmore
        exact absurd hmore Bool.false_ne_true
    rw [descWalk, hend, hpos, List.take_succ_eq_append_getElem hn, List.flatMap_append,
      List.length_append, List.flatMap_singleton, Nat.add_assoc]
    rfl

/-- Once a call returns 0, the walker does not move any more. -/
theorem descWalk_ended {it : DescIter} {n : ℕ} (h : (um9DescIterNext (descWalk it n)).2 = false)
    (k : ℕ) : (um9DescIterNext (descWalk it (n + k))).2 = false ∧
      descWalk it (n + k + 1) = descWalk it (n + 1) := by
  induction k with
  | zero => exact ⟨h, rfl⟩
  | succ k ih =>
    have hstay := um9DescIterNext_ended ih.1
    have hnext : descWalk it (n + (k + 1)) = (um9DescIterNext (descWalk it (n + k))).1 := rfl
    constructor
    · rw [hnext, hstay]
    · show (um9DescIterNext (descWalk it (n + (k + 1)))).1 = _
      rw [hnext, hstay]
      exact ih.2

/-! ## The result -/

namespace DescErr
variable {rest : List UInt8}

theorem ofRest_eq_none : ofRest rest = .none ↔ rest = [] := by
  unfold ofRest
  rw [← List.length_eq_zero_iff]
  split_ifs with hnil hzero
  · exact iff_of_true rfl hnil
  · exact iff_of_false nofun hnil
  · exact iff_of_false nofun hnil

theorem ofRest_eq_zeroLen :
    ofRest rest = .zeroLen ↔ 2 ≤ rest.length ∧ (rest.getD 0 0).toNat < 2 := by
  unfold ofRest
  split_ifs with hnil hzero
  · exact iff_of_false nofun (by omega)
  · exact iff_of_true rfl hzero
  · exact iff_of_false nofun hzero

theorem ofRest_eq_truncated (h : Desc.ofBytes? rest = Option.none) :
    ofRest rest = .truncated ↔
      rest ≠ [] ∧ (rest.length < 2 ∨ rest.length < (rest.getD 0 0).toNat) := by
  have hbad := Desc.ofBytes?_eq_none h
  unfold ofRest
  rw [ne_eq, ← List.length_eq_zero_iff]
  split_ifs with hnil hzero
  · exact iff_of_false nofun fun hne => hne.1 hnil
  · exact iff_of_false nofun (by omega)
  · exact iff_of_true rfl (by omega)

end DescErr

/-- A buffer is a concatenation of descriptors if none of it is left over. -/
theorem Desc.exists_flatMap_iff {ds : List Desc} {rest : List UInt8}
    (h : ofBytes? rest = none) :
    (∃ all : List Desc, ds.flatMap bytes ++ rest = all.flatMap bytes) ↔ rest = [] := by
  constructor
  · rintro ⟨all, hall⟩
    have hleft := descriptors_append ds rest
    have hright := descriptors_append all []
    rw [List.append_nil, ← hall, hleft, descriptors_none h, descriptors_none rfl] at hright
    simpa using congrArg Prod.snd hright
  · rintro rfl
    exact ⟨ds, List.append_nil _⟩

/-- **The walker tiles the buffer.**  It visits the descriptors `ds`, one behind the
    other from offset 0 on, and stops for good before `rest`: without an error if the
    buffer is made of descriptors, with the error that says what is wrong there
    otherwise.  The readers see the current descriptor only, and no offset that is
    computed on the way is beyond the end of the buffer. -/
theorem um9DescIterNext_tiles (bytes : List UInt8) :
    let it := descWalk (um9DescIterInit (some bytes) bytes.length)
    ∃ (ds : List Desc) (rest : List UInt8), bytes = ds.flatMap Desc.bytes ++ rest ∧
      (∀ (n : ℕ) (hn : n < ds.length), (um9DescIterNext (it n)).2 = true ∧
        (it (n + 1)).off = ((ds.take n).flatMap Desc.bytes).length ∧ (it (n + 1)).At ds[n] ∧
        2 ≤ (it (n + 1)).blen ∧ (it (n + 1)).blen ≤ bytes.length - (it (n + 1)).off ∧
        (it (n + 1)).err = .none) ∧
      (∀ n ≥ ds.length, (um9DescIterNext (it n)).2 = false ∧ it (n + 1) = it (ds.length + 1)) ∧
      ((it (ds.length + 1)).err = .none ↔ ∃ all : List Desc, bytes = all.flatMap Desc.bytes) ∧
      ((it (ds.length + 1)).err = .zeroLen ↔ 2 ≤ rest.length ∧ (rest.getD 0 0).toNat < 2) ∧
      ((it (ds.length + 1)).err = .truncated ↔
        rest ≠ [] ∧ (rest.length < 2 ∨ rest.length < (rest.getD 0 0).toNat)) ∧
      ∀ n relOff, (it n).off + (it n).blen = (it n).pos ∧ (it n).pos ≤ bytes.length ∧
        ((it n).blen ≤ relOff → um9DescU8 (it n) relOff = 0) ∧
        (relOff < (it n).blen → ∃ hin : (it n).off + relOff < bytes.length,
          um9DescU8 (it n) relOff = bytes[(it n).off + relOff].toNat) ∧
        ((it n).blen ≤ relOff + 1 → um9DescU16le (it n) relOff = 0) ∧
        (relOff + 1 < (it n).blen → ∃ hin : (it n).off + relOff + 1 < bytes.length,
          um9DescU16le (it n) relOff = bytes[(it n).off + relOff].toNat |||
            (bytes[(it n).off + relOff + 1].toNat <<< 8)) := by
  intro it
  obtain ⟨rest, htile, hrest⟩ := descriptors_tile bytes
  generalize (descriptors bytes).1 = ds at htile
  have hinit : (um9DescIterInit (some bytes) bytes.length).Before
      (ds.flatMap Desc.bytes ++ rest) := htile ▸ um9DescIterInit_before bytes
  have hinside := descWalk_inside bytes
  refine ⟨ds, rest, htile, ?_, ?_, ?_⟩
  · intro n hn
    obtain ⟨hbefore, hpos⟩ := descWalk_before hinit (le_of_lt hn)
    rw [List.drop_eq_getElem_cons hn, List.flatMap_cons, List.append_assoc] at hbefore
    have hstep := um9DescIterNext_spec hbefore
    rw [Desc.ofBytes?_append] at hstep
    obtain ⟨hmore, hat, hnext⟩ := hstep
    have hoff : (it (n + 1)).off = ((ds.take n).flatMap Desc.bytes).length := by
      rw [← Nat.zero_add (List.length _)]
      exact (um9DescIterNext_off hmore).trans hpos
    have hin := hinside (n + 1)
    have hend := hin.pos
    have hle := hin.pos_le
    have hblen : (it (n + 1)).blen = ds[n].blen := hat.blen
    have htwo : 2 ≤ ds[n].blen := ds[n].two_le
    refine ⟨hmore, hoff, hat, hblen ▸ htwo, ?_, hnext.err⟩
    show (descWalk _ (n + 1)).blen ≤ _ - (descWalk _ (n + 1)).off
    omega
  · obtain ⟨hbefore, -⟩ := descWalk_before hinit (le_refl ds.length)
    rw [List.drop_length] at hbefore
    obtain ⟨hstop, -⟩ := um9DescIterNext_stop hbefore hrest
    intro n hn
    obtain ⟨k, rfl⟩ := Nat.exists_eq_add_of_le hn
    exact descWalk_ended hstop k
  · obtain ⟨hbefore, -⟩ := descWalk_before hinit (le_refl ds.length)
    rw [List.drop_length] at hbefore
    obtain ⟨-, herr⟩ := um9DescIterNext_stop hbefore hrest
    change (it (ds.length + 1)).err = _ at herr
    rw [herr]
    refine ⟨?_, DescErr.ofRest_eq_zeroLen, DescErr.ofRest_eq_truncated hrest, ?_⟩
    · rw [DescErr.ofRest_eq_none, htile]
      exact (Desc.exists_flatMap_iff hrest).symm
    · intro n relOff
      have hin := hinside n
      exact ⟨hin.pos, hin.pos_le, (hin.um9DescU8_eq relOff).1, (hin.um9DescU8_eq relOff).2,
        (hin.um9DescU16le_eq relOff).1, (hin.um9DescU16le_eq relOff).2⟩

end Usbmidi9
