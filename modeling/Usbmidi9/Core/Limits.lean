/-
  USBMIDI9 — the arrays of a topology (`um9_ms_info`, `um9_ports`).

  `Checked` has the functions of `ports.c` once more, on the structures as they lie
  in memory: every array has its declared length, every store checks its index,
  every subtraction of a header size that it does not underflow, and every id that
  is stored that it is read from where the ids of its descriptor are.  What does
  not pass a check panics.

  `Checked.um9MsParse_eq` and `Checked.um9PortsFromMs_eq` say that nothing panics,
  and that the result is that of the functions on lists.
-/
import Usbmidi9.Core.Jacks
import Usbmidi9.Lib.Outcome

namespace Usbmidi9

/-! ## The structures in memory -/

/-- `um9_jack`. -/
structure JackSlot where
  id : ℕ
  type : ℕ
  direction : MidiDir
  numSources : ℕ
  sourceIds : Vector ℕ um9MaxJackSources

/-- `um9_endpoint`. -/
structure EndpointSlot where
  address : ℕ
  attributes : ℕ
  maxPacketSize : ℕ
  numEmbedded : ℕ
  embeddedIds : Vector ℕ um9MaxEmbeddedJacks

/-- `um9_ms_info`. -/
structure MsMemory where
  found : Bool
  vid : ℕ
  pid : ℕ
  interfaceNumber : ℕ
  alternateSetting : ℕ
  interfaceClass : ℕ
  interfaceSubclass : ℕ
  numEndpointsDeclared : ℕ
  bcdMsc : ℕ
  wtotalLength : ℕ
  numJacks : ℕ
  jacks : Vector JackSlot um9MaxJacks
  numInJacks : ℕ
  numOutJacks : ℕ
  numEndpoints : ℕ
  endpoints : Vector EndpointSlot um9MaxEndpoints

/-- `um9_ports`. -/
structure PortsMemory where
  count : ℕ
  ports : Vector Um9Port um9MaxPorts

/-- `memset(out, 0, sizeof(*out))`. -/
def JackSlot.zero : JackSlot := ⟨0, 0, .in_, 0, Vector.replicate _ 0⟩
def EndpointSlot.zero : EndpointSlot := ⟨0, 0, 0, 0, Vector.replicate _ 0⟩
def MsMemory.zero : MsMemory :=
  ⟨false, 0, 0, 0, 0, 0, 0, 0, 0, 0, 0, Vector.replicate _ .zero, 0, 0, 0, Vector.replicate _ .zero⟩

/-- The jack in a slot, and the endpoint. -/
def JackSlot.jack (s : JackSlot) : Um9Jack :=
  ⟨s.id, s.type, s.direction, s.sourceIds.toList.take s.numSources⟩
def EndpointSlot.endpoint (s : EndpointSlot) : Um9Endpoint :=
  ⟨s.address, s.attributes, s.maxPacketSize, s.embeddedIds.toList.take s.numEmbedded⟩

namespace MsMemory

/-- The topology that the structure stands for. -/
def info (m : MsMemory) : Um9MsInfo where
  found := m.found
  vid := m.vid
  pid := m.pid
  interfaceNumber := m.interfaceNumber
  alternateSetting := m.alternateSetting
  interfaceClass := m.interfaceClass
  interfaceSubclass := m.interfaceSubclass
  numEndpointsDeclared := m.numEndpointsDeclared
  bcdMsc := m.bcdMsc
  wtotalLength := m.wtotalLength
  jacks := (m.jacks.toList.take m.numJacks).map JackSlot.jack
  numInJacks := m.numInJacks
  numOutJacks := m.numOutJacks
  endpoints := (m.endpoints.toList.take m.numEndpoints).map EndpointSlot.endpoint

/-- **The limits**: no count is greater than the length of its array. -/
structure Wf (m : MsMemory) : Prop where
  numJacks : m.numJacks ≤ um9MaxJacks
  numEndpoints : m.numEndpoints ≤ um9MaxEndpoints
  numSources : ∀ s ∈ m.jacks.toList, s.numSources ≤ um9MaxJackSources
  numEmbedded : ∀ s ∈ m.endpoints.toList, s.numEmbedded ≤ um9MaxEmbeddedJacks
  sum : m.numInJacks + m.numOutJacks = m.numJacks

end MsMemory

/-- The ports that the structure stands for. -/
def PortsMemory.list (m : PortsMemory) : List Um9Port := m.ports.toList.take m.count

/-! ## The checked functions -/

namespace Checked

/-- A checked computation: it returns or panics. -/
abbrev Run (α : Type) : Type := Outcome Empty α

open Outcome (ok panic wordSub modify fill)

/-- `um9_desc_u8`, for a byte that must be among the first `limit` of the
    descriptor. -/
def um9DescU8 (it : DescIter) (limit relOff : ℕ) : Run ℕ :=
  if relOff < limit then ok (Usbmidi9.um9DescU8 it relOff) else panic

/-- `um9_ms_add_jack`: the index of the slot that is taken, if there is one. -/
def um9MsAddJack (out : MsMemory) (direction : MidiDir) : Run (MsMemory × Option ℕ) :=
  if um9MaxJacks ≤ out.numJacks then ok (out, none)
  else do
    let jacks ← modify out.jacks out.numJacks fun slot =>
      ok { slot with id := 0, type := 0, direction, numSources := 0 }
    let out' := { out with
      numJacks := out.numJacks + 1
      jacks
      numInJacks := if direction = .in_ then out.numInJacks + 1 else out.numInJacks
      numOutJacks := if direction = .in_ then out.numOutJacks else out.numOutJacks + 1 }
    ok (out', some out.numJacks)

/-- `um9_ms_add_endpoint`. -/
def um9MsAddEndpoint (out : MsMemory) (address attributes maxPacketSize : ℕ) :
    Run (MsMemory × Option ℕ) :=
  if um9MaxEndpoints ≤ out.numEndpoints then ok (out, none)
  else do
    let endpoints ← modify out.endpoints out.numEndpoints fun slot =>
      ok { slot with address, attributes, maxPacketSize, numEmbedded := 0 }
    ok ({ out with numEndpoints := out.numEndpoints + 1, endpoints }, some out.numEndpoints)

/-- The locals of `um9_ms_parse`. -/
structure MsScan where
  out : MsMemory
  inMs : Bool
  curEpAddress : ℕ
  curEpAttributes : ℕ
  curEpMaxPacket : ℕ

/-- A descriptor before the MIDIStreaming interface. -/
def um9MsStepOutside (st : MsScan) (it : DescIter) : MsScan :=
  if it.btype = dtDevice ∧ 18 ≤ it.blen then
    { st with out := { st.out with vid := um9DescU16le it 8, pid := um9DescU16le it 10 } }
  else if it.btype = dtInterface ∧ 9 ≤ it.blen ∧ Usbmidi9.um9DescU8 it 5 = audioClass ∧
      Usbmidi9.um9DescU8 it 6 = midiStreamingSubclass then
    { st with
      inMs := true
      out := { st.out with
        found := true
        interfaceNumber := Usbmidi9.um9DescU8 it 2
        alternateSetting := Usbmidi9.um9DescU8 it 3
        numEndpointsDeclared := Usbmidi9.um9DescU8 it 4
        interfaceClass := Usbmidi9.um9DescU8 it 5
        interfaceSubclass := Usbmidi9.um9DescU8 it 6 } }
  else st

/-- What the caller of `um9_ms_add_jack` stores in a MIDI IN jack. -/
def storeInJack (it : DescIter) (slot : JackSlot) : Run JackSlot := do
  let type ← um9DescU8 it it.blen 3
  let id ← um9DescU8 it it.blen 4
  ok { slot with type, id }

/-- And in a MIDI OUT jack: the last byte of its descriptor is a string index. -/
def storeOutJack (it : DescIter) (slot : JackSlot) : Run JackSlot := do
  let type ← um9DescU8 it it.blen 3
  let id ← um9DescU8 it it.blen 4
  let room ← wordSub it.blen 7
  let npins := min (min (Usbmidi9.um9DescU8 it 5) um9MaxJackSources) room
  let sourceIds ← fill (fun i => um9DescU8 it (it.blen - 1) (6 + i)) 0 npins slot.sourceIds
  ok { slot with type, id, numSources := npins, sourceIds }

/-- `um9_ms_add_jack` and what its caller stores. -/
def addJack (out : MsMemory) (direction : MidiDir) (store : JackSlot → Run JackSlot) :
    Run MsMemory := do
  let (out, jack) ← um9MsAddJack out direction
  match jack with
  | none => ok out
  | some k =>
    let jacks ← modify out.jacks k store
    ok { out with jacks }

/-- A class interface descriptor. -/
def um9MsStepCsInterface (out : MsMemory) (it : DescIter) : Run MsMemory :=
  let subtype := Usbmidi9.um9DescU8 it 2
  if subtype = msHeader ∧ 7 ≤ it.blen then
    ok { out with bcdMsc := um9DescU16le it 3, wtotalLength := um9DescU16le it 5 }
  else if subtype = msMidiInJack ∧ 6 ≤ it.blen then addJack out .in_ (storeInJack it)
  else if subtype = msMidiOutJack ∧ 9 ≤ it.blen then addJack out .out (storeOutJack it)
  else ok out

/-- What is stored in an endpoint. -/
def storeEmbedded (it : DescIter) (slot : EndpointSlot) : Run EndpointSlot := do
  let room ← wordSub it.blen 4
  let n := min (min (Usbmidi9.um9DescU8 it 3) um9MaxEmbeddedJacks) room
  let embeddedIds ← fill (fun i => um9DescU8 it it.blen (4 + i)) 0 n slot.embeddedIds
  ok { slot with numEmbedded := n, embeddedIds }

/-- `um9_ms_add_endpoint` and what its caller stores. -/
def addEndpoint (out : MsMemory) (address attributes maxPacketSize : ℕ)
    (store : EndpointSlot → Run EndpointSlot) : Run MsMemory := do
  let (out, ep) ← um9MsAddEndpoint out address attributes maxPacketSize
  match ep with
  | none => ok out
  | some k =>
    let endpoints ← modify out.endpoints k store
    ok { out with endpoints }

/-- A class endpoint descriptor. -/
def um9MsStepCsEndpoint (st : MsScan) (it : DescIter) : Run MsMemory :=
  if Usbmidi9.um9DescU8 it 2 = msGeneral ∧ 5 ≤ it.blen ∧ st.curEpAddress ≠ 0 then
    addEndpoint st.out st.curEpAddress st.curEpAttributes st.curEpMaxPacket (storeEmbedded it)
  else ok st.out

/-- The body of the loop of `um9_ms_parse`; `none` is `break`. -/
def um9MsStep (st : MsScan) (it : DescIter) : Run (Option MsScan) :=
  if st.inMs = false then ok (some (um9MsStepOutside st it))
  else if it.btype = dtInterface ∨ it.btype = dtConfig ∨ it.btype = dtDevice then ok none
  else if it.btype = dtEndpoint ∧ 7 ≤ it.blen then
    ok (some { st with
      curEpAddress := Usbmidi9.um9DescU8 it 2
      curEpAttributes := Usbmidi9.um9DescU8 it 3
      curEpMaxPacket := um9DescU16le it 4 })
  else if it.btype = dtCsInterface then do
    let out ← um9MsStepCsInterface st.out it
    ok (some { st with out })
  else if it.btype = dtCsEndpoint then do
    let out ← um9MsStepCsEndpoint st it
    ok (some { st with out })
  else ok (some st)

/-- The loop of `um9_ms_parse`, for at most `fuel` descriptors. -/
def um9MsLoop : ℕ → DescIter → MsScan → Run (DescIter × MsScan)
  | 0, it, st => ok (it, st)
  | fuel + 1, it, st =>
    match um9DescIterNext it with
    | (it, false) => ok (it, st)
    | (it, true) => do
      match ← um9MsStep st it with
      | none => ok (it, st)
      | some st => um9MsLoop fuel it st

/-- `um9_ms_parse`. -/
def um9MsParse (buf : Option (List UInt8)) (len : ℕ) : Run (MsMemory × ℕ) := do
  let r ← um9MsLoop (len + 1) (um9DescIterInit buf len) ⟨.zero, false, 0, 0, 0⟩
  ok (r.2.out, if r.1.err = .none then 1 else 0)

/-- The inner loop of `um9_ports_from_ms`, for `n` jacks from cable `i` on, and whether
    it returns. -/
def um9PortsEndpoint (ep : EndpointSlot) : ℕ → ℕ → PortsMemory → Run (PortsMemory × Bool)
  | _, 0, out => ok (out, false)
  | i, n + 1, out =>
    if um9MaxPorts ≤ out.count then ok (out, true)
    else do
      let dir := if ep.address &&& epDirIn ≠ 0 then MidiDir.in_ else MidiDir.out
      let id ← Outcome.get ep.embeddedIds.toList i
      let ports ← modify out.ports out.count fun _ => ok ⟨ep.address, dir, i, id⟩
      um9PortsEndpoint ep (i + 1) n ⟨out.count + 1, ports⟩

/-- The outer loop, for `n` endpoints from `e` on. -/
def um9PortsEndpoints (info : MsMemory) : ℕ → ℕ → PortsMemory → Run PortsMemory
  | _, 0, out => ok out
  | e, n + 1, out => do
    let ep ← Outcome.get info.endpoints.toList e
    match ← um9PortsEndpoint ep 0 ep.numEmbedded out with
    | (out, true) => ok out
    | (out, false) => um9PortsEndpoints info (e + 1) n out

/-- `um9_ports_from_ms`, on ports that hold anything. -/
def um9PortsFromMs (info : MsMemory) (out : PortsMemory) : Run PortsMemory :=
  um9PortsEndpoints info 0 info.numEndpoints { out with count := 0 }

/-! ## Nothing panics -/

theorem um9DescU8_eq {it : DescIter} {limit relOff : ℕ} (h : relOff < limit) :
    um9DescU8 it limit relOff = ok (Usbmidi9.um9DescU8 it relOff) := if_pos h

end Checked

namespace MsMemory
variable {m : MsMemory}

theorem Wf.length_jacks (h : m.Wf) : m.info.jacks.length = m.numJacks := by
  simp only [info, List.length_map, List.length_take, Vector.length_toList]
  exact Nat.min_eq_left h.numJacks

theorem Wf.length_endpoints (h : m.Wf) : m.info.endpoints.length = m.numEndpoints := by
  simp only [info, List.length_map, List.length_take, Vector.length_toList]
  exact Nat.min_eq_left h.numEndpoints

theorem zero_wf : MsMemory.zero.Wf where
  numJacks := Nat.zero_le _
  numEndpoints := Nat.zero_le _
  numSources := by
    intro s hs
    rw [zero, Vector.toList_replicate] at hs
    rw [List.eq_of_mem_replicate hs]
    exact Nat.zero_le _
  numEmbedded := by
    intro s hs
    rw [zero, Vector.toList_replicate] at hs
    rw [List.eq_of_mem_replicate hs]
    exact Nat.zero_le _
  sum := rfl

end MsMemory

namespace Checked

open Outcome (ok panic wordSub modify fill)

/-- **A jack is added** like in the list, whatever its caller stores in the slot. -/
theorem addJack_eq {m : MsMemory} (h : m.Wf) {direction : MidiDir} {store : JackSlot → Run JackSlot}
    {type id : ℕ} {ids : List ℕ}
    (hstore : ∀ slot : JackSlot, slot.direction = direction → slot.numSources = 0 →
      ∃ slot', store slot = ok slot' ∧ slot'.jack = ⟨id, type, direction, ids⟩ ∧
        slot'.numSources ≤ um9MaxJackSources) :
    ∃ m', addJack m direction store = ok m' ∧ m'.Wf ∧
      m'.info = Usbmidi9.um9MsAddJack m.info direction type id ids := by
  unfold addJack um9MsAddJack Usbmidi9.um9MsAddJack
  rw [h.length_jacks]
  by_cases hfull : um9MaxJacks ≤ m.numJacks
  · rw [if_pos hfull, if_pos hfull]
    exact ⟨m, rfl, h, rfl⟩
  · have hlt : m.numJacks < um9MaxJacks := Nat.lt_of_not_le hfull
    rw [if_neg hfull, if_neg hfull]
    obtain ⟨slot, hslot, hjack, hsources⟩ := hstore
      { m.jacks[m.numJacks] with id := 0, type := 0, direction, numSources := 0 } rfl rfl
    rw [Outcome.modify_ok hlt]
    simp only [Outcome.ok_bind]
    rw [Outcome.modify_eq hlt (by rw [Vector.getElem_set_self]; exact hslot), Vector.set_set]
    refine ⟨_, rfl, ⟨hlt, h.numEndpoints, ?_, h.numEmbedded, ?_⟩, ?_⟩
    · intro s hs
      rw [Vector.toList_set] at hs
      rcases List.mem_or_eq_of_mem_set hs with hs | rfl
      · exact h.numSources s hs
      · exact hsources
    · have hsum := h.sum
      simp only
      split_ifs
      · omega
      · omega
    · simp only [MsMemory.info, Outcome.take_toList_set, List.map_append, List.map_singleton, hjack]

/-- **An endpoint is added** like in the list. -/
theorem addEndpoint_eq {m : MsMemory} (h : m.Wf) {address attributes maxPacketSize : ℕ}
    {store : EndpointSlot → Run EndpointSlot} {ids : List ℕ}
    (hstore : ∀ slot : EndpointSlot, ∃ slot', store slot = ok slot' ∧
      slot'.endpoint = ⟨slot.address, slot.attributes, slot.maxPacketSize, ids⟩ ∧
        slot'.numEmbedded ≤ um9MaxEmbeddedJacks) :
    ∃ m', addEndpoint m address attributes maxPacketSize store = ok m' ∧ m'.Wf ∧
      m'.info = Usbmidi9.um9MsAddEndpoint m.info address attributes maxPacketSize ids := by
  unfold addEndpoint um9MsAddEndpoint Usbmidi9.um9MsAddEndpoint
  rw [h.length_endpoints]
  by_cases hfull : um9MaxEndpoints ≤ m.numEndpoints
  · rw [if_pos hfull, if_pos hfull]
    exact ⟨m, rfl, h, rfl⟩
  · have hlt : m.numEndpoints < um9MaxEndpoints := Nat.lt_of_not_le hfull
    rw [if_neg hfull, if_neg hfull]
    obtain ⟨slot, hslot, hendpoint, hembedded⟩ := hstore
      { m.endpoints[m.numEndpoints] with address, attributes, maxPacketSize, numEmbedded := 0 }
    rw [Outcome.modify_ok hlt]
    simp only [Outcome.ok_bind]
    rw [Outcome.modify_eq hlt (by rw [Vector.getElem_set_self]; exact hslot), Vector.set_set]
    refine ⟨_, rfl, ⟨h.numJacks, hlt, h.numSources, ?_, h.sum⟩, ?_⟩
    · intro s hs
      rw [Vector.toList_set] at hs
      rcases List.mem_or_eq_of_mem_set hs with hs | rfl
      · exact h.numEmbedded s hs
      · exact hembedded
    · simp only [MsMemory.info, Outcome.take_toList_set, List.map_append, List.map_singleton,
        hendpoint]

/-- The type and the id are in a descriptor of that length. -/
theorem storeInJack_eq {it : DescIter} (h : 6 ≤ it.blen) (slot : JackSlot)
    (hdir : slot.direction = .in_) (hnone : slot.numSources = 0) :
    ∃ slot', storeInJack it slot = ok slot' ∧
      slot'.jack = ⟨Usbmidi9.um9DescU8 it 4, Usbmidi9.um9DescU8 it 3, .in_, []⟩ ∧
        slot'.numSources ≤ um9MaxJackSources := by
  unfold storeInJack
  rw [um9DescU8_eq (by omega), Outcome.ok_bind, um9DescU8_eq (by omega), Outcome.ok_bind]
  refine ⟨_, rfl, ?_, ?_⟩
  · simp only [JackSlot.jack, hdir, hnone, List.take_zero]
  · simp only [hnone]
    exact Nat.zero_le _

/-- **The sources are in front of the string index**, and they fit. -/
theorem storeOutJack_eq {it : DescIter} (h : 9 ≤ it.blen) (slot : JackSlot)
    (hdir : slot.direction = .out) :
    ∃ slot', storeOutJack it slot = ok slot' ∧
      slot'.jack = ⟨Usbmidi9.um9DescU8 it 4, Usbmidi9.um9DescU8 it 3, .out,
        readIds it 6 (min (min (Usbmidi9.um9DescU8 it 5) um9MaxJackSources) (it.blen - 7))⟩ ∧
        slot'.numSources ≤ um9MaxJackSources := by
  obtain ⟨sourceIds, hfill, htake⟩ := Outcome.fill_eq
    (f := fun i => um9DescU8 it (it.blen - 1) (6 + i))
    (g := fun i => Usbmidi9.um9DescU8 it (6 + i)) (i := 0)
    (k := min (min (Usbmidi9.um9DescU8 it 5) um9MaxJackSources) (it.blen - 7))
    (by omega) (fun j hj => um9DescU8_eq (by omega)) slot.sourceIds
  unfold storeOutJack
  rw [um9DescU8_eq (by omega), Outcome.ok_bind, um9DescU8_eq (by omega), Outcome.ok_bind,
    Outcome.wordSub_eq (by omega), Outcome.ok_bind]
  simp only [hfill, Outcome.ok_bind]
  refine ⟨_, rfl, ?_, by simp only; omega⟩
  rw [Nat.zero_add, List.take_zero, List.nil_append, ← List.range_eq_range'] at htake
  simp only [JackSlot.jack, hdir, htake, readIds]

theorem storeEmbedded_eq {it : DescIter} (h : 5 ≤ it.blen) (slot : EndpointSlot) :
    ∃ slot', storeEmbedded it slot = ok slot' ∧
      slot'.endpoint = ⟨slot.address, slot.attributes, slot.maxPacketSize,
        readIds it 4 (min (min (Usbmidi9.um9DescU8 it 3) um9MaxEmbeddedJacks) (it.blen - 4))⟩ ∧
        slot'.numEmbedded ≤ um9MaxEmbeddedJacks := by
  obtain ⟨embeddedIds, hfill, htake⟩ := Outcome.fill_eq
    (f := fun i => um9DescU8 it it.blen (4 + i))
    (g := fun i => Usbmidi9.um9DescU8 it (4 + i)) (i := 0)
    (k := min (min (Usbmidi9.um9DescU8 it 3) um9MaxEmbeddedJacks) (it.blen - 4))
    (by omega) (fun j hj => um9DescU8_eq (by omega)) slot.embeddedIds
  unfold storeEmbedded
  rw [Outcome.wordSub_eq (by omega), Outcome.ok_bind]
  simp only [hfill, Outcome.ok_bind]
  refine ⟨_, rfl, ?_, by simp only; omega⟩
  rw [Nat.zero_add, List.take_zero, List.nil_append, ← List.range_eq_range'] at htake
  simp only [EndpointSlot.endpoint, htake, readIds]

theorem um9MsStepCsInterface_eq {m : MsMemory} (h : m.Wf) (it : DescIter) :
    ∃ m', um9MsStepCsInterface m it = ok m' ∧ m'.Wf ∧
      m'.info = Usbmidi9.um9MsStepCsInterface m.info it := by
  unfold um9MsStepCsInterface Usbmidi9.um9MsStepCsInterface
  simp only
  split_ifs with hheader hin hout
  · exact ⟨_, rfl, ⟨h.numJacks, h.numEndpoints, h.numSources, h.numEmbedded, h.sum⟩, rfl⟩
  · exact addJack_eq h fun slot hdir hnone => storeInJack_eq hin.2 slot hdir hnone
  · exact addJack_eq h fun slot hdir _ => storeOutJack_eq hout.2 slot hdir
  · exact ⟨m, rfl, h, rfl⟩

/-- The locals that these stand for. -/
def MsScan.scan (st : MsScan) : Usbmidi9.MsScan :=
  ⟨st.out.info, st.inMs, st.curEpAddress, st.curEpAttributes, st.curEpMaxPacket⟩

theorem um9MsStepCsEndpoint_eq {st : MsScan} (h : st.out.Wf) (it : DescIter) :
    ∃ m', um9MsStepCsEndpoint st it = ok m' ∧ m'.Wf ∧
      m'.info = Usbmidi9.um9MsStepCsEndpoint st.scan it := by
  unfold um9MsStepCsEndpoint Usbmidi9.um9MsStepCsEndpoint
  simp only [show st.scan.curEpAddress = st.curEpAddress from rfl]
  split_ifs with hgeneral
  · exact addEndpoint_eq h fun slot => storeEmbedded_eq hgeneral.2.1 slot
  · exact ⟨st.out, rfl, h, rfl⟩

/-- **One descriptor**: the checked step is the step, and the limits hold after it. -/
theorem um9MsStep_eq {st : MsScan} (h : st.out.Wf) (it : DescIter) :
    ∃ r, um9MsStep st it = ok r ∧ r.map MsScan.scan = Usbmidi9.um9MsStep st.scan it ∧
      ∀ st' ∈ r, st'.out.Wf := by
  have hsame : ∀ m : MsMemory, m.Wf → ∀ st' ∈ some { st with out := m }, st'.out.Wf := by
    intro m hm st' hst'
    obtain rfl := Option.some.inj hst'
    exact hm
  unfold um9MsStep Usbmidi9.um9MsStep
  simp only [show st.scan.inMs = st.inMs from rfl]
  split_ifs with hout hends hep hci hce
  · refine ⟨_, rfl, ?_, ?_⟩
    · unfold um9MsStepOutside Usbmidi9.um9MsStepOutside
      split_ifs <;> rfl
    · intro st' hst'
      obtain rfl := Option.some.inj hst'
      unfold um9MsStepOutside
      split_ifs
      · exact ⟨h.numJacks, h.numEndpoints, h.numSources, h.numEmbedded, h.sum⟩
      · exact ⟨h.numJacks, h.numEndpoints, h.numSources, h.numEmbedded, h.sum⟩
      · exact h
  · exact ⟨none, rfl, rfl, fun st' hst' => absurd hst' (Option.not_mem_none st')⟩
  · refine ⟨_, rfl, rfl, ?_⟩
    intro st' hst'
    obtain rfl := Option.some.inj hst'
    exact h
  · obtain ⟨m, hm, hwf, hinfo⟩ := um9MsStepCsInterface_eq h it
    refine ⟨_, by rw [hm]; rfl, ?_, hsame m hwf⟩
    rw [← show m.info = Usbmidi9.um9MsStepCsInterface st.scan.out it from hinfo]
    rfl
  · obtain ⟨m, hm, hwf, hinfo⟩ := um9MsStepCsEndpoint_eq h it
    refine ⟨_, by rw [hm]; rfl, ?_, hsame m hwf⟩
    rw [← hinfo]
    rfl
  · exact ⟨_, rfl, rfl, hsame st.out h⟩

theorem um9MsLoop_eq (fuel : ℕ) (it : DescIter) (st : MsScan) (h : st.out.Wf) :
    ∃ it' st', um9MsLoop fuel it st = ok (it', st') ∧ st'.out.Wf ∧
      Usbmidi9.um9MsLoop fuel it st.scan = (it', st'.scan) := by
  induction fuel generalizing it st with
  | zero => exact ⟨it, st, rfl, h, rfl⟩
  | succ fuel ih =>
    unfold um9MsLoop Usbmidi9.um9MsLoop
    rcases um9DescIterNext it with ⟨it', _ | _⟩
    · exact ⟨it', st, rfl, h, rfl⟩
    · obtain ⟨r, hr, hscan, hwf⟩ := um9MsStep_eq h it'
      simp only [hr, Outcome.ok_bind, ← hscan]
      cases r with
      | none => exact ⟨it', st, rfl, h, rfl⟩
      | some st' => exact ih it' st' (hwf st' rfl)

/-- **Parsing never panics**, for any buffer. -/
theorem um9MsParse_eq (buf : Option (List UInt8)) (len : ℕ) :
    ∃ m, um9MsParse buf len = ok (m, (Usbmidi9.um9MsParse buf len).2) ∧ m.Wf ∧
      m.info = (Usbmidi9.um9MsParse buf len).1 := by
  obtain ⟨it, st, hloop, hwf, heq⟩ := um9MsLoop_eq (len + 1) (um9DescIterInit buf len)
    ⟨.zero, false, 0, 0, 0⟩ MsMemory.zero_wf
  have hzero : (⟨.zero, false, 0, 0, 0⟩ : MsScan).scan = ⟨.zero, false, 0, 0, 0⟩ := rfl
  rw [hzero] at heq
  unfold um9MsParse Usbmidi9.um9MsParse
  simp only [hloop, heq, Outcome.ok_bind]
  exact ⟨st.out, rfl, hwf, rfl⟩

/-! ## Ports -/

theorem list_length {out : PortsMemory} (h : out.count ≤ um9MaxPorts) :
    out.list.length = out.count := by
  rw [PortsMemory.list, List.length_take, Vector.length_toList]
  exact Nat.min_eq_left h

/-- The next `n + 1` elements of an array from one of them on. -/
theorem take_drop_succ {α : Type} {l : List α} {i : ℕ} (h : i < l.length) (n : ℕ) :
    (l.drop i).take (n + 1) = l[i] :: (l.drop (i + 1)).take n := by
  rw [List.drop_eq_getElem_cons h, List.take_succ_cons]

theorem um9PortsEndpoint_eq (ep : EndpointSlot) {i n : ℕ} (hle : i + n ≤ um9MaxEmbeddedJacks)
    (out : PortsMemory) (hout : out.count ≤ um9MaxPorts) :
    ∃ out' done, um9PortsEndpoint ep i n out = ok (out', done) ∧ out'.count ≤ um9MaxPorts ∧
      Usbmidi9.um9PortsEndpoint ep.endpoint i ((ep.embeddedIds.toList.drop i).take n) out.list =
        (out'.list, done) := by
  induction n generalizing i out with
  | zero => exact ⟨out, false, rfl, hout, rfl⟩
  | succ n ih =>
    have hi : i < ep.embeddedIds.toList.length := by rw [Vector.length_toList]; omega
    rw [take_drop_succ hi]
    unfold um9PortsEndpoint Usbmidi9.um9PortsEndpoint
    rw [list_length hout]
    by_cases hfull : um9MaxPorts ≤ out.count
    · rw [if_pos hfull, if_pos hfull]
      exact ⟨out, true, rfl, hout, rfl⟩
    · have hlt : out.count < um9MaxPorts := Nat.lt_of_not_le hfull
      rw [if_neg hfull, if_neg hfull, Outcome.get_eq hi, Outcome.ok_bind, Outcome.modify_ok hlt,
        Outcome.ok_bind]
      obtain ⟨out', done, hrun, hcount, hlist⟩ := ih (i := i + 1) (by omega)
        ⟨out.count + 1, out.ports.set out.count
          ⟨ep.address, if ep.address &&& epDirIn ≠ 0 then .in_ else .out, i,
            ep.embeddedIds.toList[i]⟩⟩ hlt
      refine ⟨out', done, hrun, hcount, ?_⟩
      rw [← hlist]
      simp only [PortsMemory.list, Outcome.take_toList_set]
      rfl

theorem um9PortsEndpoints_eq {info : MsMemory} (h : info.Wf) {e n : ℕ}
    (hle : e + n ≤ um9MaxEndpoints) (out : PortsMemory) (hout : out.count ≤ um9MaxPorts) :
    ∃ out', um9PortsEndpoints info e n out = ok out' ∧ out'.count ≤ um9MaxPorts ∧
      Usbmidi9.um9PortsEndpoints
        (((info.endpoints.toList.drop e).take n).map EndpointSlot.endpoint) out.list =
          out'.list := by
  induction n generalizing e out with
  | zero => exact ⟨out, rfl, hout, rfl⟩
  | succ n ih =>
    have he : e < info.endpoints.toList.length := by rw [Vector.length_toList]; omega
    have hembedded := h.numEmbedded _ (List.getElem_mem he)
    obtain ⟨out', done, hrun, hcount, hlist⟩ :=
      um9PortsEndpoint_eq info.endpoints.toList[e] (i := 0)
        (n := info.endpoints.toList[e].numEmbedded) (by rwa [Nat.zero_add]) out hout
    have hids : (info.endpoints.toList[e].embeddedIds.toList.drop 0).take
        info.endpoints.toList[e].numEmbedded = info.endpoints.toList[e].endpoint.embeddedIds := rfl
    rw [hids] at hlist
    rw [take_drop_succ he, List.map_cons]
    unfold um9PortsEndpoints Usbmidi9.um9PortsEndpoints
    rw [Outcome.get_eq he, Outcome.ok_bind, hrun, Outcome.ok_bind, hlist]
    cases done with
    | true => exact ⟨out', rfl, hcount, rfl⟩
    | false => exact ih (e := e + 1) (by omega) out' hcount

/-- **Deriving the ports never panics**, whatever the ports held. -/
theorem um9PortsFromMs_eq {info : MsMemory} (h : info.Wf) (out : PortsMemory) :
    ∃ out', um9PortsFromMs info out = ok out' ∧ out'.count ≤ um9MaxPorts ∧
      out'.list = (Usbmidi9.um9PortsFromMs info.info).1 := by
  obtain ⟨out', hrun, hcount, hlist⟩ := um9PortsEndpoints_eq h (e := 0) (n := info.numEndpoints)
    (by rw [Nat.zero_add]; exact h.numEndpoints) { out with count := 0 } (Nat.zero_le _)
  exact ⟨out', hrun, hcount, hlist.symm⟩

end Checked

/-! ## Where the ids come from -/

/-- The id of a jack and its sources are read from inside the descriptor, the sources
    in front of its last byte. -/
theorem Desc.jack_eq_some {d : Desc} {jack : Um9Jack} (h : d.jack = some jack) :
    jack.id = d.u8 4 ∧ 4 < d.blen ∧ ∀ i < jack.sourceIds.length,
      jack.sourceIds[i]? = some (d.u8 (6 + i)) ∧ 6 + i < d.blen - 1 := by
  unfold Desc.jack at h
  split_ifs at h with hin hout
  · obtain rfl := Option.some.inj h
    have hlen := hin.2.2
    exact ⟨rfl, by omega, fun i hi => absurd hi (Nat.not_lt_zero i)⟩
  · obtain rfl := Option.some.inj h
    have hlen := hout.2.2
    refine ⟨rfl, by omega, ?_⟩
    intro i hi
    rw [Desc.sourceIds, List.length_map, List.length_range] at hi
    refine ⟨?_, by omega⟩
    rw [Desc.sourceIds, List.getElem?_map, List.getElem?_range hi, Option.map_some]

theorem Desc.getElem?_jackIds {d : Desc} {i : ℕ} (h : i < d.jackIds.length) :
    d.jackIds[i]? = some (d.u8 (4 + i)) ∧ 4 + i < d.blen := by
  rw [Desc.jackIds, List.length_map, List.length_range] at h
  refine ⟨?_, by omega⟩
  rw [Desc.jackIds, List.getElem?_map, List.getElem?_range h, Option.map_some]

theorem mem_of_mem_associations {ds : List Desc} {p : ℕ × Desc} (h : p ∈ associations ds) :
    p.2 ∈ ds := by
  obtain ⟨q, hq, hassoc⟩ := List.mem_filterMap.1 h
  unfold association at hassoc
  split_ifs at hassoc
  obtain rfl := Option.some.inj hassoc
  exact (List.of_mem_zip hq).2

/-- The jacks of a topology are made of descriptors of the MIDIStreaming interface. -/
theorem um9MsParse_jack_mem {bytes : List UInt8} {jack : Um9Jack}
    (h : jack ∈ (um9MsParse (some bytes) bytes.length).1.jacks) :
    ∃ d ∈ msDescriptors (descriptors bytes).1, d.jack = some jack := by
  rw [um9MsParse_jacks] at h
  exact List.mem_filterMap.1 (List.mem_of_mem_take h)

theorem um9MsParse_endpoint_mem {bytes : List UInt8} {ep : Um9Endpoint}
    (h : ep ∈ (um9MsParse (some bytes) bytes.length).1.endpoints) :
    ∃ d ∈ msDescriptors (descriptors bytes).1, ep.embeddedIds = d.jackIds := by
  have hmem : ep.association ∈
      (um9MsParse (some bytes) bytes.length).1.endpoints.map Um9Endpoint.association :=
    List.mem_map_of_mem h
  rw [(um9MsParse_spec bytes).1] at hmem
  obtain ⟨p, hp, heq⟩ := List.mem_map.1 (List.mem_of_mem_take hmem)
  exact ⟨p.2, mem_of_mem_associations hp, (congrArg Prod.snd heq).symm⟩

/-! ## The result -/

/-- **Topology parsing never exceeds its limits.**  For every buffer and whatever the
    ports held: no store is outside its array, no header size is subtracted from a
    shorter descriptor and no id is read from beside the ids (nothing panics); the
    result is that of the functions on lists, its counts are within the limits, and
    every id is a byte of a descriptor of the MIDIStreaming interface, at an offset
    where its ids are. -/
theorem um9MsParse_limits (bytes : List UInt8) (out : PortsMemory) :
    ∃ m ports, Checked.um9MsParse (some bytes) bytes.length =
        .ok (m, (um9MsParse (some bytes) bytes.length).2) ∧
      Checked.um9PortsFromMs m out = .ok ports ∧
      m.info = (um9MsParse (some bytes) bytes.length).1 ∧
      ports.list = (um9PortsFromMs m.info).1 ∧
      m.numJacks ≤ um9MaxJacks ∧ m.numEndpoints ≤ um9MaxEndpoints ∧ ports.count ≤ um9MaxPorts ∧
      m.numInJacks + m.numOutJacks = m.numJacks ∧
      (∀ s ∈ m.jacks.toList.take m.numJacks, s.numSources ≤ um9MaxJackSources ∧
        ∃ d ∈ msDescriptors (descriptors bytes).1, s.id = d.u8 4 ∧ 4 < d.blen ∧
          ∀ i < s.numSources, s.sourceIds[i]? = some (d.u8 (6 + i)) ∧ 6 + i < d.blen - 1) ∧
      (∀ s ∈ m.endpoints.toList.take m.numEndpoints, s.numEmbedded ≤ um9MaxEmbeddedJacks ∧
        ∃ d ∈ msDescriptors (descriptors bytes).1,
          ∀ i < s.numEmbedded, s.embeddedIds[i]? = some (d.u8 (4 + i)) ∧ 4 + i < d.blen) := by
  obtain ⟨m, hparse, hwf, hinfo⟩ := Checked.um9MsParse_eq (some bytes) bytes.length
  obtain ⟨ports, hports, hcount, hlist⟩ := Checked.um9PortsFromMs_eq hwf out
  refine ⟨m, ports, hparse, hports, hinfo, hlist, hwf.numJacks, hwf.numEndpoints, hcount, hwf.sum,
    ?_, ?_⟩
  · intro s hs
    have hle := hwf.numSources s (List.mem_of_mem_take hs)
    have hlen : s.jack.sourceIds.length = s.numSources := by
      simp only [JackSlot.jack, List.length_take, Vector.length_toList]
      exact Nat.min_eq_left hle
    have hjack : s.jack ∈ (um9MsParse (some bytes) bytes.length).1.jacks := by
      rw [← hinfo]
      exact List.mem_map_of_mem hs
    obtain ⟨d, hd, heq⟩ := um9MsParse_jack_mem hjack
    obtain ⟨hid, hfour, hsources⟩ := Desc.jack_eq_some heq
    refine ⟨hle, d, hd, hid, hfour, ?_⟩
    intro i hi
    obtain ⟨hget, hin⟩ := hsources i (by rwa [hlen])
    refine ⟨?_, hin⟩
    rw [← hget, JackSlot.jack, List.getElem?_take_of_lt hi, Vector.getElem?_toList]
  · intro s hs
    have hle := hwf.numEmbedded s (List.mem_of_mem_take hs)
    have hlen : s.endpoint.embeddedIds.length = s.numEmbedded := by
      simp only [EndpointSlot.endpoint, List.length_take, Vector.length_toList]
      exact Nat.min_eq_left hle
    have hep : s.endpoint ∈ (um9MsParse (some bytes) bytes.length).1.endpoints := by
      rw [← hinfo]
      exact List.mem_map_of_mem hs
    obtain ⟨d, hd, heq⟩ := um9MsParse_endpoint_mem hep
    refine ⟨hle, d, hd, ?_⟩
    intro i hi
    obtain ⟨hget, hin⟩ := Desc.getElem?_jackIds (d := d) (by rwa [← heq, hlen])
    refine ⟨?_, hin⟩
    rw [← hget, ← heq, EndpointSlot.endpoint, List.getElem?_take_of_lt hi,
      Vector.getElem?_toList]

end Usbmidi9
