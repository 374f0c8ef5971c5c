/-
  USBMIDI9 — MIDIStreaming topology and logical ports (`core/ports.h`,
  `core/ports.c`).

  `um9MsParse` walks a descriptor buffer once, with the endpoint it saw last at
  hand, and stops behind the first MIDIStreaming interface; `um9PortsFromMs`
  makes a port of every embedded jack.  An array with its count is a list.

  `referencePorts` says what the ports are, given the descriptors; that is what
  `um9PortsParse` returns, unless a malformed descriptor is in the way
  (`um9PortsParse_spec`).
-/
import Usbmidi9.Core.Descriptors

namespace Usbmidi9

/-! ## Topology -/

/-- `UM9_MAX_JACKS`, `UM9_MAX_JACK_SOURCES`, `UM9_MAX_ENDPOINTS`,
    `UM9_MAX_EMBEDDED_JACKS` and `UM9_MAX_PORTS`. -/
abbrev um9MaxJacks : ℕ := 16
abbrev um9MaxJackSources : ℕ := 8
abbrev um9MaxEndpoints : ℕ := 8
abbrev um9MaxEmbeddedJacks : ℕ := 16
abbrev um9MaxPorts : ℕ := 32

/-- `UM9_JACK_DIR_*` and `UM9_PORT_DIR_*`. -/
inductive MidiDir where
  | in_
  | out
deriving DecidableEq, Repr

/-- `um9_jack`. -/
structure Um9Jack where
  id : ℕ
  type : ℕ
  direction : MidiDir
  sourceIds : List ℕ
deriving DecidableEq, Repr

/-- `um9_endpoint`. -/
structure Um9Endpoint where
  address : ℕ
  attributes : ℕ
  maxPacketSize : ℕ
  embeddedIds : List ℕ
deriving DecidableEq, Repr

/-- `um9_ms_info`. -/
structure Um9MsInfo where
  found : Bool
  vid : ℕ
  pid : ℕ
  interfaceNumber : ℕ
  alternateSetting : ℕ
  interfaceClass : ℕ
  interfaceSubclass : ℕ
  numEndpointsDeclared : ℕ
  bcdMsc : ℕ
  wtotalLength : ℕ
  jacks : List Um9Jack
  numInJacks : ℕ
  numOutJacks : ℕ
  endpoints : List Um9Endpoint
deriving DecidableEq, Repr

/-- `memset(out, 0, sizeof(*out))`. -/
def Um9MsInfo.zero : Um9MsInfo := ⟨false, 0, 0, 0, 0, 0, 0, 0, 0, 0, [], 0, 0, []⟩

/-- `um9_ms_add_jack`, with the type, the id and the sources that the caller stores
    if the jack is recorded. -/
def um9MsAddJack (out : Um9MsInfo) (direction : MidiDir) (type id : ℕ) (sourceIds : List ℕ) :
    Um9MsInfo :=
  if um9MaxJacks ≤ out.jacks.length then out
  else
    { out with
      jacks := out.jacks ++ [⟨id, type, direction, sourceIds⟩]
      numInJacks := if direction = .in_ then out.numInJacks + 1 else out.numInJacks
      numOutJacks := if direction = .in_ then out.numOutJacks else out.numOutJacks + 1 }

/-- `um9_ms_add_endpoint`, with the jacks that the caller stores if the endpoint is
    recorded. -/
def um9MsAddEndpoint (out : Um9MsInfo) (address attributes maxPacketSize : ℕ)
    (embeddedIds : List ℕ) : Um9MsInfo :=
  if um9MaxEndpoints ≤ out.endpoints.length then out
  else { out with endpoints := out.endpoints ++ [⟨address, attributes, maxPacketSize, embeddedIds⟩] }

/-- The locals of `um9_ms_parse`. -/
structure MsScan where
  out : Um9MsInfo
  inMs : Bool
  curEpAddress : ℕ
  curEpAttributes : ℕ
  curEpMaxPacket : ℕ
deriving DecidableEq, Repr

/-- A field that is read as a list: `n` bytes from `relOff`. -/
def readIds (it : DescIter) (relOff n : ℕ) : List ℕ :=
  (List.range n).map fun i => um9DescU8 it (relOff + i)

/-- A descriptor before the MIDIStreaming interface. -/
def um9MsStepOutside (st : MsScan) (it : DescIter) : MsScan :=
  if it.btype = dtDevice ∧ 18 ≤ it.blen then
    { st with out := { st.out with vid := um9DescU16le it 8, pid := um9DescU16le it 10 } }
  else if it.btype = dtInterface ∧ 9 ≤ it.blen ∧ um9DescU8 it 5 = audioClass ∧
      um9DescU8 it 6 = midiStreamingSubclass then
    { st with
      inMs := true
      out := { st.out with
        found := true
        interfaceNumber := um9DescU8 it 2
        alternateSetting := um9DescU8 it 3
        numEndpointsDeclared := um9DescU8 it 4
        interfaceClass := um9DescU8 it 5
        interfaceSubclass := um9DescU8 it 6 } }
  else st

/-- A class interface descriptor. -/
def um9MsStepCsInterface (out : Um9MsInfo) (it : DescIter) : Um9MsInfo :=
  let subtype := um9DescU8 it 2
  if subtype = msHeader ∧ 7 ≤ it.blen then
    { out with bcdMsc := um9DescU16le it 3, wtotalLength := um9DescU16le it 5 }
  else if subtype = msMidiInJack ∧ 6 ≤ it.blen then
    um9MsAddJack out .in_ (um9DescU8 it 3) (um9DescU8 it 4) []
  else if subtype = msMidiOutJack ∧ 9 ≤ it.blen then
    let npins := min (min (um9DescU8 it 5) um9MaxJackSources) (it.blen - 7)
    um9MsAddJack out .out (um9DescU8 it 3) (um9DescU8 it 4) (readIds it 6 npins)
  else out

/-- A class endpoint descriptor. -/
def um9MsStepCsEndpoint (st : MsScan) (it : DescIter) : Um9MsInfo :=
  if um9DescU8 it 2 = msGeneral ∧ 5 ≤ it.blen ∧ st.curEpAddress ≠ 0 then
    let n := min (min (um9DescU8 it 3) um9MaxEmbeddedJacks) (it.blen - 4)
    um9MsAddEndpoint st.out st.curEpAddress st.curEpAttributes st.curEpMaxPacket (readIds it 4 n)
  else st.out

/-- The body of the loop of `um9_ms_parse`; `none` is `break`. -/
def um9MsStep (st : MsScan) (it : DescIter) : Option MsScan :=
  if st.inMs = false then some (um9MsStepOutside st it)
  else if it.btype = dtInterface ∨ it.btype = dtConfig ∨ it.btype = dtDevice then none
  else if it.btype = dtEndpoint ∧ 7 ≤ it.blen then
    some { st with
      curEpAddress := um9DescU8 it 2
      curEpAttributes := um9DescU8 it 3
      curEpMaxPacket := um9DescU16le it 4 }
  else if it.btype = dtCsInterface then some { st with out := um9MsStepCsInterface st.out it }
  else if it.btype = dtCsEndpoint then some { st with out := um9MsStepCsEndpoint st it }
  else some st

/-- The loop of `um9_ms_parse`, for at most `fuel` descriptors. -/
def um9MsLoop : ℕ → DescIter → MsScan → DescIter × MsScan
  | 0, it, st => (it, st)
  | fuel + 1, it, st =>
    match um9DescIterNext it with
    | (it, false) => (it, st)
    | (it, true) =>
      match um9MsStep st it with
      | none => (it, st)
      | some st => um9MsLoop fuel it st

/-- `um9_ms_parse`. -/
def um9MsParse (buf : Option (List UInt8)) (len : ℕ) : Um9MsInfo × ℕ :=
  let r := um9MsLoop (len + 1) (um9DescIterInit buf len) ⟨.zero, false, 0, 0, 0⟩
  (r.2.out, if r.1.err = .none then 1 else 0)

/-! ## Ports -/

/-- `um9_port`. -/
structure Um9Port where
  endpointAddress : ℕ
  direction : MidiDir
  cable : ℕ
  embeddedJackId : ℕ
deriving DecidableEq, Repr

/-- The inner loop of `um9_ports_from_ms`, from cable `i` on, and whether it
    returns. -/
def um9PortsEndpoint (ep : Um9Endpoint) : ℕ → List ℕ → List Um9Port → List Um9Port × Bool
  | _, [], out => (out, false)
  | i, id :: ids, out =>
    if um9MaxPorts ≤ out.length then (out, true)
    else
      let dir := if ep.address &&& epDirIn ≠ 0 then MidiDir.in_ else MidiDir.out
      um9PortsEndpoint ep (i + 1) ids (out ++ [⟨ep.address, dir, i, id⟩])

/-- The outer loop. -/
def um9PortsEndpoints : List Um9Endpoint → List Um9Port → List Um9Port
  | [], out => out
  | ep :: eps, out =>
    match um9PortsEndpoint ep 0 ep.embeddedIds out with
    | (out, true) => out
    | (out, false) => um9PortsEndpoints eps out

/-- `um9_ports_from_ms`. -/
def um9PortsFromMs (info : Um9MsInfo) : List Um9Port × ℕ := (um9PortsEndpoints info.endpoints [], 1)

/-- `um9_ports_parse`. -/
def um9PortsParse (buf : Option (List UInt8)) (len : ℕ) (out : List Um9Port) : List Um9Port × ℕ :=
  let r := um9MsParse buf len
  if r.2 = 0 then (out, 0) else um9PortsFromMs r.1

/-! ## The reference -/

namespace Desc

/-- An interface descriptor of the MIDIStreaming subclass. -/
def MsInterface (d : Desc) : Prop :=
  d.btype = dtInterface ∧ 9 ≤ d.blen ∧ d.u8 5 = audioClass ∧ d.u8 6 = midiStreamingSubclass

/-- A descriptor that ends the MIDIStreaming interface. -/
def Ends (d : Desc) : Prop := d.btype = dtInterface ∨ d.btype = dtConfig ∨ d.btype = dtDevice

/-- A standard endpoint descriptor. -/
def Endpoint (d : Desc) : Prop := d.btype = dtEndpoint ∧ 7 ≤ d.blen

/-- An MS_GENERAL class endpoint descriptor. -/
def General (d : Desc) : Prop := d.btype = dtCsEndpoint ∧ d.u8 2 = msGeneral ∧ 5 ≤ d.blen

instance : DecidablePred MsInterface := fun _ => inferInstanceAs (Decidable (_ ∧ _))
instance : DecidablePred Ends := fun _ => inferInstanceAs (Decidable (_ ∨ _))
instance : DecidablePred Endpoint := fun _ => inferInstanceAs (Decidable (_ ∧ _))
instance : DecidablePred General := fun _ => inferInstanceAs (Decidable (_ ∧ _))

/-- The jack ids that an MS_GENERAL descriptor lists. -/
def jackIds (d : Desc) : List ℕ :=
  (List.range (min (min (d.u8 3) um9MaxEmbeddedJacks) (d.blen - 4))).map fun i => d.u8 (4 + i)

end Desc

/-- What follows the first MIDIStreaming interface descriptor. -/
def afterMsInterface (ds : List Desc) : List Desc :=
  (ds.dropWhile fun d => ¬d.MsInterface).tail

/-- The descriptors of the first MIDIStreaming interface. -/
def msDescriptors (ds : List Desc) : List Desc := (afterMsInterface ds).takeWhile fun d => ¬d.Ends

/-- The address of the latest standard endpoint descriptor, zero if there is none. -/
def latestAddress (ds : List Desc) : ℕ :=
  ((ds.filter fun d => d.Endpoint).getLast?.map fun d => d.u8 2).getD 0

/-- An MS_GENERAL descriptor with the address of the endpoint that it follows. -/
def association (before : List Desc) (d : Desc) : Option (ℕ × Desc) :=
  if d.General ∧ latestAddress before ≠ 0 then some (latestAddress before, d) else none

/-- All of them, in order. -/
def associations (ds : List Desc) : List (ℕ × Desc) :=
  (ds.inits.zip ds).filterMap fun p => association p.1 p.2

/-- The ports of one endpoint: a cable for each jack; bit 7 of the address is the
    direction. -/
def endpointPorts (address : ℕ) (ids : List ℕ) : List Um9Port :=
  ids.zipIdx.map fun p => ⟨address, if address.testBit 7 then .in_ else .out, p.2, p.1⟩

/-- The logical ports of a list of descriptors. -/
def referencePorts (ds : List Desc) : List Um9Port :=
  (((associations (msDescriptors ds)).take um9MaxEndpoints).flatMap fun p =>
    endpointPorts p.1 p.2.jackIds).take um9MaxPorts

/-- A malformed descriptor comes before the end of the first MIDIStreaming
    interface. -/
def MeetsMalformed (bytes : List UInt8) : Prop :=
  (descriptors bytes).2 = true ∧ ∀ d ∈ afterMsInterface (descriptors bytes).1, ¬d.Ends

instance (bytes : List UInt8) : Decidable (MeetsMalformed bytes) :=
  inferInstanceAs (Decidable (_ ∧ ∀ d ∈ afterMsInterface _, _))

/-! ## Ports from endpoints -/

theorem and_epDirIn_ne_zero (address : ℕ) :
    address &&& epDirIn ≠ 0 ↔ address.testBit 7 = true := by
  rw [show epDirIn = 2 ^ 7 from rfl, Nat.and_two_pow]
  cases address.testBit 7 <;> simp

/-- The inner loop: the ports that fit, and it returns if some do not. -/
theorem um9PortsEndpoint_spec (ep : Um9Endpoint) (ids : List ℕ) (i : ℕ) {out : List Um9Port}
    (hout : out.length ≤ um9MaxPorts) :
    let new := (ids.zipIdx i).map fun p => Um9Port.mk ep.address
      (if ep.address.testBit 7 then .in_ else .out) p.2 p.1
    (um9PortsEndpoint ep i ids out).1 = (out ++ new).take um9MaxPorts ∧
      ((um9PortsEndpoint ep i ids out).2 = true ↔ um9MaxPorts < (out ++ new).length) := by
  induction ids generalizing i out with
  | nil => simpa [um9PortsEndpoint] using hout
  | cons id ids ih =>
    unfold um9PortsEndpoint
    by_cases hfull : um9MaxPorts ≤ out.length
    · have hlen : out.length = um9MaxPorts := le_antisymm hout hfull
      rw [if_pos hfull]
      simp [hlen]
    · rw [if_neg hfull]
      have hdir : (if ep.address &&& epDirIn ≠ 0 then MidiDir.in_ else MidiDir.out) =
          if ep.address.testBit 7 then .in_ else .out := by
        simp only [and_epDirIn_ne_zero]
      simp only [hdir]
      have hlen : (out ++ [(⟨ep.address, if ep.address.testBit 7 then .in_ else .out, i, id⟩ :
          Um9Port)]).length ≤ um9MaxPorts := by
        rw [List.length_append, List.length_singleton]
        omega
      have hrest := ih (i + 1) hlen
      simpa only [List.append_assoc, List.singleton_append, List.zipIdx_cons, List.map_cons] using
        hrest

/-- **The ports of a topology** are those of its endpoints, as far as they fit. -/
theorem um9PortsEndpoints_eq (eps : List Um9Endpoint) {out : List Um9Port}
    (hout : out.length ≤ um9MaxPorts) :
    um9PortsEndpoints eps out =
      (out ++ eps.flatMap fun ep => endpointPorts ep.address ep.embeddedIds).take um9MaxPorts := by
  induction eps generalizing out with
  | nil =>
    rw [List.flatMap_nil, List.append_nil, List.take_of_length_le hout]
    rfl
  | cons ep eps ih =>
    obtain ⟨hports, hdone⟩ := um9PortsEndpoint_spec ep ep.embeddedIds 0 hout
    rw [List.flatMap_cons, ← List.append_assoc]
    change _ = (out ++ endpointPorts ep.address ep.embeddedIds).take um9MaxPorts at hports
    change _ ↔ um9MaxPorts < (out ++ endpointPorts ep.address ep.embeddedIds).length at hdone
    unfold um9PortsEndpoints
    rcases hr : um9PortsEndpoint ep 0 ep.embeddedIds out with ⟨out', _ | _⟩
    · rw [hr] at hports hdone
      have hfits : (out ++ endpointPorts ep.address ep.embeddedIds).length ≤ um9MaxPorts := by
        simpa using hdone
      rw [List.take_of_length_le hfits] at hports
      subst hports
      exact ih hfits
    · rw [hr] at hports hdone
      have hfull := hdone.1 rfl
      simp only at hports ⊢
      rw [hports, List.take_append_of_le_length hfull.le]

/-! ## The scan -/

/-- The loop of `um9_ms_parse` on descriptors, and whether it breaks. -/
def msScan : MsScan → List Desc → MsScan × Bool
  | st, [] => (st, false)
  | st, d :: ds =>
    match um9MsStep st d.iter with
    | none => (st, true)
    | some st => msScan st ds

/-- The body of the loop looks at the current descriptor only. -/
theorem um9MsStep_at {it : DescIter} {d : Desc} (h : it.At d) (st : MsScan) :
    um9MsStep st it = um9MsStep st d.iter := by
  have hbtype : it.btype = d.iter.btype := h.btype
  have hblen : it.blen = d.iter.blen := h.blen
  unfold um9MsStep um9MsStepOutside um9MsStepCsInterface um9MsStepCsEndpoint readIds
  simp only [hbtype, hblen, h.u8, h.u16le]

/-- **The loop** scans the descriptors of the buffer; it ends without an error if it
    breaks or the buffer has no malformed one. -/
theorem um9MsLoop_spec {fuel : ℕ} {it : DescIter} {tail : List UInt8} (h : it.Before tail)
    (hfuel : tail.length < fuel) (st : MsScan) :
    (um9MsLoop fuel it st).2 = (msScan st (descriptors tail).1).1 ∧
      ((um9MsLoop fuel it st).1.err = .none ↔
        (msScan st (descriptors tail).1).2 = true ∨ (descriptors tail).2 = false) := by
  induction fuel generalizing it tail st with
  | zero => omega
  | succ fuel ih =>
    have hstep := um9DescIterNext_spec h
    unfold um9MsLoop
    rcases hn : um9DescIterNext it with ⟨it', more⟩
    rw [hn] at hstep
    rcases hd : Desc.ofBytes? tail with _ | d
    · rw [hd] at hstep
      obtain ⟨rfl, herr⟩ := hstep
      rw [descriptors_none hd]
      simp only [msScan, Bool.false_eq_true, false_or, Bool.not_eq_false', List.isEmpty_iff]
      exact ⟨trivial, herr⟩
    · rw [hd] at hstep
      obtain ⟨rfl, hat, hbefore⟩ := hstep
      have hlt := Desc.ofBytes?_drop hd
      rw [descriptors_some hd]
      simp only [msScan, um9MsStep_at hat]
      rcases um9MsStep st d.iter with _ | st'
      · exact ⟨rfl, iff_of_true hbefore.err (.inl rfl)⟩
      · exact ih hbefore (by omega) st'

/-! ## The reference is what the scan records -/

/-- What the ports of an endpoint are made of. -/
def Um9Endpoint.association (ep : Um9Endpoint) : ℕ × List ℕ := (ep.address, ep.embeddedIds)

/-- Before the MIDIStreaming interface no endpoint is recorded. -/
theorem um9MsStepOutside_spec (st : MsScan) (d : Desc) :
    (um9MsStepOutside st d.iter).out.endpoints = st.out.endpoints ∧
      (um9MsStepOutside st d.iter).curEpAddress = st.curEpAddress ∧
      (um9MsStepOutside st d.iter).inMs = (st.inMs || decide d.MsInterface) := by
  have hu8 := d.um9DescU8_iter
  have hbtype : d.iter.btype = d.btype := rfl
  have hblen : d.iter.blen = d.blen := rfl
  unfold um9MsStepOutside Desc.MsInterface
  simp only [hu8, hbtype, hblen]
  split_ifs with h1 h2
  · have hno : ¬(d.btype = dtInterface ∧ 9 ≤ d.blen ∧ d.u8 5 = audioClass ∧
        d.u8 6 = midiStreamingSubclass) := by
      rintro ⟨h, -⟩
      rw [h1.1] at h
      exact absurd h (by decide)
    exact ⟨rfl, rfl, by simp [hno]⟩
  · exact ⟨rfl, rfl, by simp [h2]⟩
  · exact ⟨rfl, rfl, by simp [h2]⟩

/-- **Up to the MIDIStreaming interface** holds what every descriptor keeps. -/
theorem msScan_outside {I : MsScan → Prop}
    (hI : ∀ st (d : Desc), I st → I (um9MsStepOutside st d.iter)) {st : MsScan}
    (h : st.inMs = false) (hst : I st) (ds : List Desc) :
    ∃ st', msScan st ds = msScan st' (afterMsInterface ds) ∧ I st' ∧
      (afterMsInterface ds ≠ [] → st'.inMs = true) := by
  induction ds generalizing st with
  | nil => exact ⟨st, rfl, hst, fun h => absurd rfl h⟩
  | cons d ds ih =>
    have hin := (um9MsStepOutside_spec st d).2.2
    rw [h, Bool.false_or] at hin
    have hstep : msScan st (d :: ds) = msScan (um9MsStepOutside st d.iter) ds := by
      rw [msScan, um9MsStep, if_pos h]
    rw [hstep]
    by_cases hms : d.MsInterface
    · have hafter : afterMsInterface (d :: ds) = ds := by
        simp [afterMsInterface, hms]
      rw [hafter]
      exact ⟨_, rfl, hI st d hst, fun _ => by rw [hin]; exact decide_eq_true hms⟩
    · have hafter : afterMsInterface (d :: ds) = afterMsInterface ds := by
        simp [afterMsInterface, hms]
      rw [hafter]
      exact ih (hin.trans (decide_eq_false hms)) (hI st d hst)

theorem latestAddress_concat (before : List Desc) (d : Desc) :
    latestAddress (before ++ [d]) = if d.Endpoint then d.u8 2 else latestAddress before := by
  unfold latestAddress
  rw [List.filter_append]
  split_ifs with hd
  · simp [hd]
  · simp [hd]

/-- Class interface descriptors record no endpoint. -/
theorem um9MsStepCsInterface_endpoints (out : Um9MsInfo) (it : DescIter) :
    (um9MsStepCsInterface out it).endpoints = out.endpoints := by
  have hjack : ∀ dir type id ids, (um9MsAddJack out dir type id ids).endpoints = out.endpoints := by
    intro dir type id ids
    unfold um9MsAddJack
    split_ifs <;> rfl
  unfold um9MsStepCsInterface
  simp only
  split_ifs
  · rfl
  · exact hjack ..
  · exact hjack ..
  · rfl

/-- The endpoints of a scan, as far as ports are made of them. -/
def MsScan.associations (st : MsScan) : List (ℕ × List ℕ) :=
  st.out.endpoints.map Um9Endpoint.association

/-- What an MS_GENERAL descriptor adds to them. -/
def newAssociation (before : List Desc) (d : Desc) : List (ℕ × List ℕ) :=
  ((association before d).map fun p => (p.1, p.2.jackIds)).toList

theorem um9MsStepCsEndpoint_spec {st : MsScan} {before : List Desc}
    (hlen : st.associations.length ≤ um9MaxEndpoints)
    (hcur : st.curEpAddress = latestAddress before) {d : Desc} (hd : d.btype = dtCsEndpoint) :
    (um9MsStepCsEndpoint st d.iter).endpoints.map Um9Endpoint.association =
      (st.associations ++ newAssociation before d).take um9MaxEndpoints := by
  have hu8 := d.um9DescU8_iter
  have hblen : d.iter.blen = d.blen := rfl
  have hids : readIds d.iter 4 (min (min (d.u8 3) um9MaxEmbeddedJacks) (d.blen - 4)) = d.jackIds := by
    simp only [readIds, hu8]
    rfl
  rw [MsScan.associations, List.length_map] at hlen
  unfold um9MsStepCsEndpoint
  simp only [hu8, hblen, hids, hcur]
  by_cases hg : d.u8 2 = msGeneral ∧ 5 ≤ d.blen ∧ latestAddress before ≠ 0
  · have hnew : newAssociation before d = [(latestAddress before, d.jackIds)] := by
      have hgen : d.General ∧ latestAddress before ≠ 0 := ⟨⟨hd, hg.1, hg.2.1⟩, hg.2.2⟩
      rw [newAssociation, association, if_pos hgen]
      rfl
    rw [if_pos hg, hnew, um9MsAddEndpoint]
    split_ifs with hfull
    · rw [MsScan.associations, List.take_append_of_le_length (by rwa [List.length_map]),
        List.take_of_length_le (by rwa [List.length_map])]
    · rw [List.take_of_length_le (by simp [MsScan.associations]; omega), List.map_append]
      rfl
  · have hnew : newAssociation before d = [] := by
      have hgen : ¬(d.General ∧ latestAddress before ≠ 0) := fun h => hg ⟨h.1.2.1, h.1.2.2, h.2⟩
      rw [newAssociation, association, if_neg hgen]
      rfl
    rw [if_neg hg, hnew, List.append_nil, MsScan.associations,
      List.take_of_length_le (by rwa [List.length_map])]

/-- **One descriptor of the MIDIStreaming interface**: it ends the scan, or the
    endpoint of an MS_GENERAL descriptor is recorded, as long as there is room. -/
theorem um9MsStep_inside {st : MsScan} (h : st.inMs = true) {before : List Desc}
    (hlen : st.associations.length ≤ um9MaxEndpoints)
    (hcur : st.curEpAddress = latestAddress before) (d : Desc) :
    match um9MsStep st d.iter with
    | none => d.Ends
    | some st' => ¬d.Ends ∧ st'.inMs = true ∧ st'.curEpAddress = latestAddress (before ++ [d]) ∧
        st'.associations = (st.associations ++ newAssociation before d).take um9MaxEndpoints := by
  have hu8 := d.um9DescU8_iter
  have hbtype : d.iter.btype = d.btype := rfl
  have hblen : d.iter.blen = d.blen := rfl
  have hnot : ¬st.inMs = false := by simp [h]
  -- a descriptor of another type adds no endpoint
  have hother : d.btype ≠ dtCsEndpoint →
      st.associations = (st.associations ++ newAssociation before d).take um9MaxEndpoints := by
    intro hne
    have hnew : newAssociation before d = [] := by
      rw [newAssociation, association, if_neg fun hg => hne hg.1.1]
      rfl
    rw [hnew, List.append_nil, List.take_of_length_le hlen]
  have hkept : ¬d.Endpoint → st.curEpAddress = latestAddress (before ++ [d]) := by
    intro hne
    rw [latestAddress_concat, if_neg hne]
    exact hcur
  unfold um9MsStep
  rw [if_neg hnot]
  simp only [hbtype, hblen]
  split_ifs with hends hep hci hce
  · exact hends
  · refine ⟨hends, h, ?_, hother ?_⟩
    · have hendpoint : d.Endpoint := hep
      rw [latestAddress_concat, if_pos hendpoint]
      exact hu8 2
    · rw [hep.1]
      decide
  · refine ⟨hends, h, hkept hep, ?_⟩
    rw [← hother (by rw [hci]; decide)]
    exact congrArg (List.map _) (um9MsStepCsInterface_endpoints st.out d.iter)
  · exact ⟨hends, h, hkept hep, um9MsStepCsEndpoint_spec hlen hcur hce⟩
  · exact ⟨hends, h, hkept hep, hother hce⟩

/-- The associations of the descriptors that follow others. -/
theorem associations_cons (d : Desc) (ds : List Desc) (before : List Desc) :
    ((d :: ds).inits.zip (d :: ds)).filterMap (fun p => association (before ++ p.1) p.2) =
      (association before d).toList ++
        (ds.inits.zip ds).filterMap fun p => association (before ++ [d] ++ p.1) p.2 := by
  rw [List.inits_cons, List.zip_cons_cons, List.filterMap_cons, List.zip_map_left,
    List.filterMap_map]
  have hrest : ((fun p : List Desc × Desc => association (before ++ p.1) p.2) ∘
      Prod.map (fun t => d :: t) id) = fun p => association (before ++ [d] ++ p.1) p.2 := by
    funext p
    simp
  rw [hrest, List.append_nil]
  cases association before d with
  | none => rfl
  | some p => rfl

theorem take_append_take {α : Type*} (n : ℕ) (l l' : List α) :
    (l.take n ++ l').take n = (l ++ l').take n := by
  rw [List.take_append, List.take_append, List.take_take, Nat.min_self, List.length_take]
  congr 2
  omega

/-- **The MIDIStreaming interface**: its first endpoints are recorded, and the scan
    breaks if a descriptor ends it. -/
theorem msScan_inside {st : MsScan} (h : st.inMs = true) {before : List Desc}
    (hlen : st.associations.length ≤ um9MaxEndpoints)
    (hcur : st.curEpAddress = latestAddress before) (ds : List Desc) :
    let sec := ds.takeWhile fun d => ¬d.Ends
    (msScan st ds).1.associations =
        (st.associations ++ ((sec.inits.zip sec).filterMap fun p =>
          association (before ++ p.1) p.2).map fun p => (p.1, p.2.jackIds)).take um9MaxEndpoints ∧
      ((msScan st ds).2 = true ↔ ∃ d ∈ ds, d.Ends) := by
  induction ds generalizing st before with
  | nil =>
    simp only [msScan, List.takeWhile_nil, List.zip_nil_right, List.filterMap_nil,
      List.map_nil, List.append_nil]
    exact ⟨(List.take_of_length_le hlen).symm, by simp⟩
  | cons d ds ih =>
    have hstep := um9MsStep_inside h hlen hcur d
    unfold msScan
    rcases hs : um9MsStep st d.iter with _ | st'
    · rw [hs] at hstep
      have hnone : (d :: ds).takeWhile (fun d => ¬d.Ends) = [] := by simp [hstep]
      rw [hnone]
      simp only [List.zip_nil_right, List.filterMap_nil, List.map_nil,
        List.append_nil]
      exact ⟨(List.take_of_length_le hlen).symm, iff_of_true trivial ⟨d, List.mem_cons_self, hstep⟩⟩
    · rw [hs] at hstep
      obtain ⟨hends, hin', hcur', hassoc⟩ := hstep
      have hlen' : st'.associations.length ≤ um9MaxEndpoints := by
        rw [hassoc]
        exact List.length_take_le _ _
      obtain ⟨hrest, hbreak⟩ := ih hin' hlen' hcur'
      have hsec : (d :: ds).takeWhile (fun d => ¬d.Ends) = d :: ds.takeWhile fun d => ¬d.Ends := by
        simp [hends]
      rw [hsec]
      simp only [associations_cons, List.map_append]
      refine ⟨?_, ?_⟩
      · rw [hrest, hassoc, take_append_take, List.append_assoc]
        congr 3
        unfold newAssociation
        cases association before d <;> rfl
      · rw [hbreak]
        simp [hends]

/-! ## The result -/

/-- **The endpoints of a topology** are those of the MIDIStreaming interface, as far as
    they fit, and parsing fails if the walk meets a malformed descriptor. -/
theorem um9MsParse_spec (bytes : List UInt8) :
    (um9MsParse (some bytes) bytes.length).1.endpoints.map Um9Endpoint.association =
        ((associations (msDescriptors (descriptors bytes).1)).map fun p =>
          (p.1, p.2.jackIds)).take um9MaxEndpoints ∧
      ((um9MsParse (some bytes) bytes.length).2 = 0 ↔ MeetsMalformed bytes) := by
  obtain ⟨hout, herr⟩ := um9MsLoop_spec (um9DescIterInit_before bytes) (Nat.lt_succ_self _)
    ⟨.zero, false, 0, 0, 0⟩
  have hstart : (⟨.zero, false, 0, 0, 0⟩ : MsScan).inMs = false := rfl
  have hkeep : ∀ (st : MsScan) (d : Desc), st.associations = [] ∧ st.curEpAddress = 0 →
      (um9MsStepOutside st d.iter).associations = [] ∧
        (um9MsStepOutside st d.iter).curEpAddress = 0 := by
    rintro st d ⟨hnone, haddress⟩
    obtain ⟨hendpoints, hcur, -⟩ := um9MsStepOutside_spec st d
    exact ⟨(congrArg (List.map _) hendpoints).trans hnone, hcur.trans haddress⟩
  obtain ⟨st, hscan, ⟨hnone, haddress⟩, hin⟩ :=
    msScan_outside hkeep hstart ⟨rfl, rfl⟩ (descriptors bytes).1
  have hspec : (msScan st (afterMsInterface (descriptors bytes).1)).1.associations =
        ((associations (msDescriptors (descriptors bytes).1)).map fun p =>
          (p.1, p.2.jackIds)).take um9MaxEndpoints ∧
      ((msScan st (afterMsInterface (descriptors bytes).1)).2 = true ↔
        ∃ d ∈ afterMsInterface (descriptors bytes).1, d.Ends) := by
    by_cases hafter : afterMsInterface (descriptors bytes).1 = []
    · rw [msDescriptors, hafter]
      simp [msScan, hnone, associations]
    · have haddress' : st.curEpAddress = latestAddress [] := haddress
      have hinside := msScan_inside (hin hafter) (by simp [hnone]) haddress'
        (afterMsInterface (descriptors bytes).1)
      simp only [hnone, List.nil_append] at hinside
      exact hinside
  rw [hscan] at hout herr
  constructor
  · rw [← hspec.1, ← hout]
    rfl
  · have hne : ¬(1 : ℕ) = 0 := by decide
    simp only [um9MsParse, MeetsMalformed, ite_eq_right_iff, hne, imp_false, herr, hspec.2]
    rw [not_or, Bool.not_eq_false, and_comm]
    simp only [not_exists, not_and]

/-- **The logical ports match the descriptors.**  For every buffer: if the walk meets
    no malformed descriptor, `um9_ports_parse` returns 1 and the ports are those of
    the reference; otherwise it returns 0. -/
theorem um9PortsParse_spec (bytes : List UInt8) (out : List Um9Port) :
    ((um9MsParse (some bytes) bytes.length).2 = 0 ↔ MeetsMalformed bytes) ∧
      um9PortsParse (some bytes) bytes.length out =
        if MeetsMalformed bytes then (out, 0) else (referencePorts (descriptors bytes).1, 1) := by
  obtain ⟨hassoc, hret⟩ := um9MsParse_spec bytes
  refine ⟨hret, ?_⟩
  unfold um9PortsParse
  simp only [hret]
  split_ifs with hbad
  · rfl
  have hempty : ([] : List Um9Port).length ≤ um9MaxPorts := Nat.zero_le _
  have hports := um9PortsEndpoints_eq (um9MsParse (some bytes) bytes.length).1.endpoints hempty
  have hflat : ∀ eps : List Um9Endpoint,
      eps.flatMap (fun ep => endpointPorts ep.address ep.embeddedIds) =
        (eps.map Um9Endpoint.association).flatMap fun p => endpointPorts p.1 p.2 := by
    intro eps
    rw [List.flatMap_map]
    rfl
  rw [um9PortsFromMs, hports, List.nil_append, hflat, hassoc, ← List.map_take, List.flatMap_map]
  rfl

/-- An interface with one OUT endpoint that has two jacks. -/
example : um9PortsParse
    (some ([9, 4, 1, 0, 1, 1, 3, 0, 0] ++ [7, 5, 0x02, 2, 64, 0, 0] ++ [6, 0x25, 1, 2, 17, 18])) 22 [] =
      ([⟨0x02, .out, 0, 17⟩, ⟨0x02, .out, 1, 18⟩], 1) := by
  decide

end Usbmidi9
