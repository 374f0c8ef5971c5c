/-
  USBMIDI9 — the probe (`probe.c`), and the functions of the dispatch table that it calls.

  The probe finds the class driver anew at every poll, prints the interface table when the
  number of interfaces has changed, and then takes at most 64 bytes from each of the first
  eight interfaces.  In between, interfaces are attached and removed, and reads are issued
  and complete (`probeStep`); a poll is a step for its beginning and one for each interface.

  A read in flight belongs to the slot that it was issued from.  It fills the ring of that
  slot, whichever interface has moved into it, or the copy that one has left there.
  `ProbeEvent.MoveOk` is the condition that no interface moves away from a read or to one.

  `probe_conserves`: what was printed for an interface, and what waits in its ring, is what
  its reads have stored.  `probe_catches_up`: polls that nothing interrupts print all of it.
-/
import Usbmidi9.Classic.Queue
import Usbmidi9.Classic.Registry
import Usbmidi9.Lib.Reach

namespace Usbmidi9

/-! ## The dispatch table -/

/-- What `USBMIDI9FillInterfaceInfo` copies from an instance. -/
structure InterfaceIdentity where
  vendorID : UInt16
  productID : UInt16
  interfaceNum : UInt32
  interfaceClass : UInt32
  interfaceSubClass : UInt32
  interfaceProtocol : UInt32
  maxPacketSize : UInt32
deriving DecidableEq, Repr

/-- `USBMIDI9InterfaceInfo`. -/
structure InterfaceInfo extends InterfaceIdentity where
  index : ℕ
  availableBytes : ℕ
deriving DecidableEq, Repr

/-- What is in a slot: a serial number, what identifies the interface, and its ring. -/
structure ProbeInstance where
  serial : ℕ
  identity : InterfaceIdentity
  ring : Ring UInt8

/-- A class driver fragment: what its dispatch table shows, and the reads in flight, by slot,
    each with the serial number of the interface that it was issued for. -/
structure ProbeDriver where
  version : ℕ
  slots : ℕ → ProbeInstance
  count : ℕ
  reads : ℕ → Option ℕ

/-- `USBMIDI9FillInterfaceInfo`. -/
def fillInterfaceInfo (index : ℕ) (inst : ProbeInstance) : InterfaceInfo :=
  { inst.identity with index, availableBytes := um9RingUsed ringSize inst.ring }

/-- `USBMIDI9EnumerateInterfaces`: the records and the count. -/
def enumerateInterfaces (d : ProbeDriver) (maxCount : ℕ) : List InterfaceInfo × ℕ :=
  ((List.range (min d.count maxCount)).map fun i => fillInterfaceInfo i (d.slots i), d.count)

/-- `USBMIDI9GetInterfaceInfo`; none for `kUSBNotFound`. -/
def getInterfaceInfo (d : ProbeDriver) (index : ℕ) : Option InterfaceInfo :=
  if d.count ≤ index then none else some (fillInterfaceInfo index (d.slots index))

namespace ProbeDriver

/-- A slot gets another ring. -/
def setRing (d : ProbeDriver) (k : ℕ) (r : Ring UInt8) : ProbeDriver :=
  { d with slots := Function.update d.slots k { d.slots k with ring := r } }

/-- `USBMIDI9DequeueBytes`, which returns 0 for an index out of range. -/
def dequeueBytes (d : ProbeDriver) (index maxBytes : ℕ) : ProbeDriver × List UInt8 :=
  if d.count ≤ index then (d, [])
  else
    let r := um9RingDequeue ringSize (d.slots index).ring maxBytes
    (d.setRing index r.1, r.2)

/-- `USBMIDI9ClaimInstance`, for the interface with the number `serial`. -/
def claimInstance (d : ProbeDriver) (serial : ℕ) (identity : InterfaceIdentity) : ProbeDriver :=
  { d with
    slots := Function.update d.slots d.count ⟨serial, identity, ⟨none, 0, 0⟩⟩
    count := d.count + 1 }

/-- `USBMIDI9DisposeInstance`: the last instance moves into the slot.  Its copy stays, and so
    do the reads. -/
def disposeInstance (d : ProbeDriver) (index : ℕ) : ProbeDriver :=
  let d := d.setRing index { (d.slots index).ring with buf := none }
  let d := { d with count := d.count - 1 }
  if index < d.count then
    { d with slots := Function.update d.slots index (d.slots d.count) }
  else d

end ProbeDriver

/-! ## The probe -/

/-- `kProbeMaxInterfaces`. -/
abbrev probeMaxInterfaces : ℕ := 8

/-- `kProbeDequeueChunk`. -/
abbrev probeDequeueChunk : ℕ := 64

/-- `kProbeMinDispatchTableVersion`. -/
abbrev probeMinDispatchTableVersion : ℕ := 0x0001

/-- `kProbeQuitKeycode`. -/
abbrev probeQuitKeycode : ℕ := 12

/-- `KeyMapByteArray`. -/
abbrev KeyMap := Vector UInt8 16

/-- `ProbeKeyDown`. -/
def probeKeyDown (keys : KeyMap) (keycode : ℕ) : Bool :=
  if 128 ≤ keycode then false
  else (keys.toList.getD (keycode / 8) 0).toNat &&& (1 <<< (keycode % 8)) ≠ 0

/-- `ProbeFindDispatchTable`, with what `FindSymbol` answers for each device of the walk. -/
def probeFindDispatchTable (devices : List (Option ℕ)) : Option ℕ := devices.findSome? id

/-- `USBMIDI9ProbeState`. -/
structure ProbeState where
  lastCount : ℕ
  noDriverReported : Bool
deriving DecidableEq, Repr

/-- What is printed; bytes come with the serial number of their interface. -/
inductive ProbeOutput where
  | noDriver
  | tooOld (version : ℕ)
  | interfaceTable (count : ℕ) (infos : List (Option InterfaceInfo))
  | iface (serial i : ℕ) (bytes : List UInt8)
deriving DecidableEq, Repr

/-- `ProbePrintInterfaceTable`. -/
def probePrintInterfaceTable (d : ProbeDriver) (count : ℕ) : ProbeOutput :=
  .interfaceTable count ((List.range (min count probeMaxInterfaces)).map (getInterfaceInfo d))

/-- The loop over the interfaces: the fragment, the next interface, and the count. -/
structure ProbeLoop where
  table : ℕ
  i : ℕ
  count : ℕ
deriving DecidableEq, Repr

/-- The probe, the fragments it may find, and what the reads of each interface have stored. -/
structure ProbeRun where
  state : ProbeState
  loop : Option ProbeLoop
  quit : Bool
  drivers : ℕ → ProbeDriver
  next : ℕ
  stored : ℕ → List UInt8
  out : List ProbeOutput

/-- What happens. -/
inductive ProbeEvent where
  /-- `USBMIDI9ProbePoll`, up to its loop -/
  | poll (keys : KeyMap) (devices : List (Option ℕ))
  /-- the next turn of the loop, or its end -/
  | dequeue
  /-- an interface issues its first read -/
  | read (t k : ℕ)
  /-- the read in flight from a slot completes; the slot reads again or not -/
  | arrival (t k : ℕ) (data : List UInt8) (again : Bool)
  | attach (t : ℕ) (identity : InterfaceIdentity)
  /-- an interface gets the memory of its ring -/
  | alloc (t k : ℕ) (buf : ℕ → UInt8)
  | remove (t k : ℕ)

namespace ProbeRun

/-- What a fragment has become. -/
def setDriver (s : ProbeRun) (t : ℕ) (d : ProbeDriver) : ProbeRun :=
  { s with drivers := Function.update s.drivers t d }

/-- What a poll does once it knows the table. -/
def found (s : ProbeRun) : Option ℕ → ProbeRun
  | none =>
    { s with
      state := { noDriverReported := true, lastCount := u32Size - 1 }
      out := s.out ++ if s.state.noDriverReported then [] else [.noDriver] }
  | some t =>
    let d := s.drivers t
    if d.version < probeMinDispatchTableVersion then
      { s with
        state := { s.state with noDriverReported := false }
        out := s.out ++ [.tooOld d.version] }
    else
      let count := (enumerateInterfaces d 0).2
      { s with
        state := { noDriverReported := false, lastCount := count }
        loop := some ⟨t, 0, count⟩
        out := s.out ++
          if count ≠ s.state.lastCount then [probePrintInterfaceTable d count] else [] }

/-- A turn of the loop. -/
def turn (s : ProbeRun) (l : ProbeLoop) : ProbeRun :=
  let s := { s with loop := some { l with i := l.i + 1 } }
  let serial := ((s.drivers l.table).slots l.i).serial
  let d := (s.drivers l.table).dequeueBytes l.i probeDequeueChunk
  let s := s.setDriver l.table d.1
  if d.2 = [] then s else { s with out := s.out ++ [.iface serial l.i d.2] }

/-- An interface is attached. -/
def attach (s : ProbeRun) (t : ℕ) (identity : InterfaceIdentity) : ProbeRun :=
  { s.setDriver t ((s.drivers t).claimInstance s.next identity) with next := s.next + 1 }

/-- A read of the interface `serial` completes in the slot `k`. -/
def arrive (s : ProbeRun) (t k serial : ℕ) (data : List UInt8) (again : Bool) : ProbeRun :=
  let d := s.drivers t
  let r := um9RingEnqueue ringSize (d.slots k).ring data
  let reads := Function.update d.reads k (if again then some (d.slots k).serial else none)
  { s.setDriver t { d.setRing k r.1 with reads } with
    stored := Function.update s.stored serial (s.stored serial ++ data.take r.2) }

end ProbeRun

/-- One step; none for a step that is not possible. -/
def probeStep (s : ProbeRun) : ProbeEvent → Option ProbeRun
  | .poll keys devices =>
    if s.quit ∨ s.loop.isSome then none
    else if probeKeyDown keys probeQuitKeycode then some { s with quit := true }
    else some (s.found (probeFindDispatchTable devices))
  | .dequeue =>
    match s.loop with
    | none => none
    | some l =>
      if l.i < l.count ∧ l.i < probeMaxInterfaces then some (s.turn l)
      else some { s with loop := none }
  | .read t k =>
    let d := s.drivers t
    if d.count ≤ k ∨ (d.reads k).isSome then none
    else some (s.setDriver t { d with reads := Function.update d.reads k (d.slots k).serial })
  | .arrival t k data again =>
    match (s.drivers t).reads k with
    | none => none
    | some serial => some (s.arrive t k serial data again)
  | .attach t identity =>
    if maxInterfaces ≤ (s.drivers t).count then none else some (s.attach t identity)
  | .alloc t k buf =>
    let d := s.drivers t
    if d.count ≤ k ∨ (d.slots k).ring.buf.isSome then none
    else some (s.setDriver t (d.setRing k ⟨some buf, 0, 0⟩))
  | .remove t k =>
    if (s.drivers t).count ≤ k then none
    else some (s.setDriver t ((s.drivers t).disposeInstance k))

/-- The start of the probe: no fragment has an interface or a read in flight. -/
def ProbeRun.boot (version : ℕ → ℕ) : ProbeRun where
  state := { lastCount := u32Size - 1, noDriverReported := false }
  loop := none
  quit := false
  drivers t := ⟨version t, fun _ => ⟨0, ⟨0, 0, 0, 0, 0, 0, 0⟩, ⟨none, 0, 0⟩⟩, 0, fun _ => none⟩
  next := 0
  stored _ := []
  out := []

/-- An interface is attached to a slot from which no read is in flight, and moves only from
    such a slot to such a slot. -/
def ProbeEvent.MoveOk (s : ProbeRun) : ProbeEvent → Prop
  | .attach t _ => (s.drivers t).reads (s.drivers t).count = none
  | .remove t k => k < (s.drivers t).count - 1 →
      (s.drivers t).reads k = none ∧ (s.drivers t).reads ((s.drivers t).count - 1) = none
  | _ => True

instance (s : ProbeRun) : (e : ProbeEvent) → Decidable (e.MoveOk s)
  | .attach .. => inferInstanceAs (Decidable (_ = _))
  | .remove .. => inferInstanceAs (Decidable (_ → _))
  | .poll .. | .dequeue | .read .. | .arrival .. | .alloc .. => isTrue trivial

/-! ## Bytes -/

/-- The bytes of an interface that a line shows. -/
def ProbeOutput.bytesOf (serial : ℕ) : ProbeOutput → List UInt8
  | .iface serial' _ bytes => if serial' = serial then bytes else []
  | _ => []

/-- The bytes of an interface that were printed. -/
def printedBytes (serial : ℕ) (out : List ProbeOutput) : List UInt8 :=
  out.flatMap (ProbeOutput.bytesOf serial)

@[simp] theorem printedBytes_append (serial : ℕ) (out out' : List ProbeOutput) :
    printedBytes serial (out ++ out') = printedBytes serial out ++ printedBytes serial out' :=
  List.flatMap_append

@[simp] theorem printedBytes_nil (serial : ℕ) : printedBytes serial [] = [] := rfl

@[simp] theorem printedBytes_singleton (serial : ℕ) (o : ProbeOutput) :
    printedBytes serial [o] = o.bytesOf serial := List.append_nil _

/-- What is in a slot. -/
abbrev ProbeRun.inst (s : ProbeRun) (t k : ℕ) : ProbeInstance := (s.drivers t).slots k

/-- An interface is in the slot. -/
abbrev ProbeRun.Attached (s : ProbeRun) (t k : ℕ) : Prop := k < (s.drivers t).count

/-- The interface `serial` is in no slot but this one, if in any. -/
def ProbeRun.Only (s : ProbeRun) (t k serial : ℕ) : Prop :=
  ∀ t' k', s.Attached t' k' → (s.inst t' k').serial = serial → t' = t ∧ k' = k

/-- Serial numbers name interfaces, reads belong to their slots, and no byte is lost, doubled
    or moved. -/
structure ProbeInv (s : ProbeRun) : Prop where
  serial_lt : ∀ t k, s.Attached t k → (s.inst t k).serial < s.next
  unique : ∀ t k, s.Attached t k → s.Only t k (s.inst t k).serial
  sound : ∀ t k, s.Attached t k → (s.inst t k).ring.Sound ringSize
  bytes : ∀ t k, s.Attached t k →
    printedBytes (s.inst t k).serial s.out ++ (s.inst t k).ring.queue ringSize =
      s.stored (s.inst t k).serial
  reading : ∀ t k serial, (s.drivers t).reads k = some serial →
    (s.inst t k).serial = serial ∧ serial < s.next ∧ s.Only t k serial
  shown : ∀ serial, printedBytes serial s.out <+: s.stored serial
  fresh : ∀ serial, s.next ≤ serial → s.stored serial = []

section
variable {s : ProbeRun} {t k : ℕ}

theorem drivers_setDriver {d : ProbeDriver} (t' : ℕ) :
    (s.setDriver t d).drivers t' = if t' = t then d else s.drivers t' := by
  unfold ProbeRun.setDriver
  by_cases ht : t' = t
  · subst ht
    simp
  · simp [ht]

/-- **Another ring** for one slot, with what was printed or stored of its interface. -/
theorem ProbeInv.setRing (hs : ProbeInv s) {r : Ring UInt8} (reads : ℕ → Option ℕ)
    {out : List ProbeOutput} {stored : ℕ → List UInt8} {loop : Option ProbeLoop}
    (hlt : (s.inst t k).serial < s.next) (honly : s.Only t k (s.inst t k).serial)
    (hreads : ∀ k' serial, reads k' = some serial →
      (s.drivers t).reads k' = some serial ∨ k' = k ∧ (s.inst t k).serial = serial)
    (hother : ∀ serial, serial ≠ (s.inst t k).serial →
      printedBytes serial out = printedBytes serial s.out ∧ stored serial = s.stored serial)
    (hself : s.Attached t k → r.Sound ringSize ∧
      printedBytes (s.inst t k).serial out ++ r.queue ringSize = stored (s.inst t k).serial)
    (hshown : printedBytes (s.inst t k).serial out <+: stored (s.inst t k).serial) :
    ProbeInv { s.setDriver t { (s.drivers t).setRing k r with reads } with out, stored, loop } := by
  generalize hs' : ({ s.setDriver t { (s.drivers t).setRing k r with reads } with
    out, stored, loop } : ProbeRun) = s'
  have hdrivers : ∀ t', s'.drivers t' =
      if t' = t then { (s.drivers t).setRing k r with reads } else s.drivers t' := by
    intro t'
    rw [← hs']
    exact drivers_setDriver t'
  have hattached : ∀ t' k', s'.Attached t' k' ↔ s.Attached t' k' := by
    intro t' k'
    rw [ProbeRun.Attached, hdrivers]
    split_ifs with ht
    · rw [ht]
      rfl
    · rfl
  have hinst : ∀ t' k', s'.inst t' k' =
      if t' = t ∧ k' = k then { s.inst t k with ring := r } else s.inst t' k' := by
    intro t' k'
    rw [ProbeRun.inst, hdrivers]
    by_cases ht : t' = t
    · subst ht
      by_cases hk : k' = k
      · subst hk
        simp [ProbeDriver.setRing]
      · simp [ProbeDriver.setRing, hk]
    · simp [ht]
  have hserial : ∀ t' k', (s'.inst t' k').serial = (s.inst t' k').serial := by
    intro t' k'
    rw [hinst]
    split_ifs with heq
    · rw [heq.1, heq.2]
    · rfl
  have honly' : ∀ t' k' serial, s'.Only t' k' serial ↔ s.Only t' k' serial := by
    intro t' k' serial
    simp only [ProbeRun.Only, hattached, hserial]
  have hout : s'.out = out := by rw [← hs']
  have hstored : s'.stored = stored := by rw [← hs']
  have hnext : s'.next = s.next := by rw [← hs']; rfl
  refine ⟨?_, ?_, ?_, ?_, ?_, ?_, ?_⟩
  · intro t' k' h
    rw [hserial, hnext]
    exact hs.serial_lt t' k' ((hattached t' k').1 h)
  · intro t' k' h
    rw [honly', hserial]
    exact hs.unique t' k' ((hattached t' k').1 h)
  · intro t' k' h
    have hwas := (hattached t' k').1 h
    rw [hinst]
    split_ifs with heq
    · obtain ⟨rfl, rfl⟩ := heq
      exact (hself hwas).1
    · exact hs.sound t' k' hwas
  · intro t' k' h
    have hwas := (hattached t' k').1 h
    rw [hinst, hout, hstored]
    split_ifs with heq
    · obtain ⟨rfl, rfl⟩ := heq
      exact (hself hwas).2
    · have hne : (s.inst t' k').serial ≠ (s.inst t k).serial := fun h => heq (honly t' k' hwas h)
      rw [(hother _ hne).1, (hother _ hne).2]
      exact hs.bytes t' k' hwas
  · intro t' k' serial h
    rw [honly', hserial, hnext]
    rw [hdrivers] at h
    split_ifs at h with ht
    · subst ht
      rcases hreads k' serial h with hold | ⟨rfl, rfl⟩
      · exact hs.reading t' k' serial hold
      · exact ⟨rfl, hlt, honly⟩
    · exact hs.reading t' k' serial h
  · intro serial
    rw [hout, hstored]
    by_cases hself : serial = (s.inst t k).serial
    · rw [hself]
      exact hshown
    · rw [(hother serial hself).1, (hother serial hself).2]
      exact hs.shown serial
  · intro serial hle
    rw [hnext] at hle
    rw [hstored, (hother serial (by omega)).2]
    exact hs.fresh serial hle

/-- A step that prints no bytes and leaves the interfaces alone. -/
theorem ProbeInv.printed (hs : ProbeInv s) {state : ProbeState} {loop : Option ProbeLoop}
    {quit : Bool} {new : List ProbeOutput} (hnew : ∀ serial, printedBytes serial new = []) :
    ProbeInv { s with state, loop, quit, out := s.out ++ new } := by
  have hout : ∀ serial, printedBytes serial (s.out ++ new) = printedBytes serial s.out := by
    intro serial
    rw [printedBytes_append, hnew, List.append_nil]
  refine ⟨hs.serial_lt, hs.unique, hs.sound, ?_, hs.reading, ?_, hs.fresh⟩
  · intro t k hk
    dsimp only
    rw [hout]
    exact hs.bytes t k hk
  · intro serial
    dsimp only
    rw [hout]
    exact hs.shown serial

/-- **An interface more**, with a serial number of its own. -/
theorem ProbeInv.attach (hs : ProbeInv s) (identity : InterfaceIdentity)
    (hidle : (s.drivers t).reads (s.drivers t).count = none) :
    ProbeInv (s.attach t identity) := by
  have hdrivers : ∀ t', (s.attach t identity).drivers t' =
      if t' = t then (s.drivers t).claimInstance s.next identity else s.drivers t' :=
    fun t' => drivers_setDriver t'
  have hinst : ∀ t' k', (s.attach t identity).inst t' k' =
      if t' = t ∧ k' = (s.drivers t).count then ⟨s.next, identity, ⟨none, 0, 0⟩⟩
      else s.inst t' k' := by
    intro t' k'
    rw [ProbeRun.inst, hdrivers]
    by_cases ht : t' = t
    · subst ht
      by_cases hk : k' = (s.drivers t').count
      · simp [ProbeDriver.claimInstance, hk]
      · simp [ProbeDriver.claimInstance, hk]
    · simp [ht]
  have hattached : ∀ t' k', (s.attach t identity).Attached t' k' ↔
      s.Attached t' k' ∨ t' = t ∧ k' = (s.drivers t).count := by
    intro t' k'
    rw [ProbeRun.Attached, ProbeRun.Attached, hdrivers]
    split_ifs with ht
    · subst ht
      simp only [ProbeDriver.claimInstance, true_and]
      omega
    · simp [ht]
  have hnew : ∀ t' k', s.Attached t' k' → ¬(t' = t ∧ k' = (s.drivers t).count) := by
    rintro t' k' h ⟨rfl, rfl⟩
    exact absurd h (lt_irrefl _)
  have hfresh : printedBytes s.next s.out = [] ∧ s.stored s.next = [] := by
    have hnone := hs.fresh s.next le_rfl
    have hshown := hs.shown s.next
    rw [hnone] at hshown
    exact ⟨List.prefix_nil.1 hshown, hnone⟩
  -- an old serial number is where it was
  have honly : ∀ t' k' serial, serial < s.next → s.Only t' k' serial →
      (s.attach t identity).Only t' k' serial := by
    intro t' k' serial hlt hold t'' k'' h hserial
    rw [hinst] at hserial
    split_ifs at hserial with heq
    · exact absurd hserial hlt.ne'
    · exact hold t'' k'' (((hattached t'' k'').1 h).resolve_right heq) hserial
  refine ⟨?_, ?_, ?_, ?_, ?_, hs.shown, fun serial hle => hs.fresh serial (Nat.le_of_succ_le hle)⟩
  · intro t' k' h
    rcases (hattached t' k').1 h with hwas | hself
    · rw [hinst, if_neg (hnew t' k' hwas)]
      exact Nat.lt_succ_of_lt (hs.serial_lt t' k' hwas)
    · rw [hinst, if_pos hself]
      exact Nat.lt_succ_self _
  · intro t' k' h
    rcases (hattached t' k').1 h with hwas | hself
    · rw [hinst, if_neg (hnew t' k' hwas)]
      exact honly _ _ _ (hs.serial_lt t' k' hwas) (hs.unique t' k' hwas)
    · rw [hinst, if_pos hself]
      intro t'' k'' h' hserial
      rcases (hattached t'' k'').1 h' with hwas | heq
      · rw [hinst, if_neg (hnew t'' k'' hwas)] at hserial
        exact absurd hserial (hs.serial_lt t'' k'' hwas).ne
      · exact ⟨heq.1.trans hself.1.symm, heq.2.trans hself.2.symm⟩
  · intro t' k' h
    rcases (hattached t' k').1 h with hwas | hself
    · rw [hinst, if_neg (hnew t' k' hwas)]
      exact hs.sound t' k' hwas
    · rw [hinst, if_pos hself]
      exact .inl rfl
  · intro t' k' h
    rcases (hattached t' k').1 h with hwas | hself
    · rw [hinst, if_neg (hnew t' k' hwas)]
      exact hs.bytes t' k' hwas
    · rw [hinst, if_pos hself]
      change printedBytes s.next s.out ++ [] = s.stored s.next
      rw [hfresh.1, hfresh.2]
      rfl
  · intro t' k' serial h
    have hread : (s.drivers t').reads k' = some serial := by
      rw [hdrivers] at h
      split_ifs at h with ht
      · rw [ht]
        exact h
      · exact h
    obtain ⟨hserial, hlt, hold⟩ := hs.reading t' k' serial hread
    have hne : ¬(t' = t ∧ k' = (s.drivers t).count) := by
      rintro ⟨rfl, rfl⟩
      rw [hidle] at hread
      cases hread
    rw [hinst, if_neg hne]
    exact ⟨hserial, Nat.lt_succ_of_lt hlt, honly _ _ _ hlt hold⟩

/-- **An interface less**; the last one moves into its slot. -/
theorem ProbeInv.remove (hs : ProbeInv s) (hk : s.Attached t k)
    (hidle : k < (s.drivers t).count - 1 →
      (s.drivers t).reads k = none ∧ (s.drivers t).reads ((s.drivers t).count - 1) = none) :
    ProbeInv (s.setDriver t ((s.drivers t).disposeInstance k)) := by
  generalize hs' : s.setDriver t ((s.drivers t).disposeInstance k) = s'
  have hdrivers : ∀ t', s'.drivers t' =
      if t' = t then (s.drivers t).disposeInstance k else s.drivers t' := by
    intro t'
    rw [← hs']
    exact drivers_setDriver t'
  have hcount : ((s.drivers t).disposeInstance k).count = (s.drivers t).count - 1 ∧
      ((s.drivers t).disposeInstance k).reads = (s.drivers t).reads := by
    unfold ProbeDriver.disposeInstance
    dsimp only
    split_ifs <;> exact ⟨rfl, rfl⟩
  have hattached : ∀ t' k', s'.Attached t' k' →
      s.Attached t' k' ∧ (t' = t → k' < (s.drivers t).count - 1) := by
    intro t' k' h
    rw [ProbeRun.Attached, hdrivers] at h
    split_ifs at h with ht
    · subst ht
      rw [hcount.1] at h
      exact ⟨by unfold ProbeRun.Attached; omega, fun _ => h⟩
    · exact ⟨h, fun heq => absurd heq ht⟩
  -- what is in a slot was there before, or in the last slot
  have hinst : ∀ t' k', s'.Attached t' k' → ∃ k'', s'.inst t' k' = s.inst t' k'' ∧
      s.Attached t' k'' ∧
      k'' = if t' = t ∧ k' = k then (s.drivers t).count - 1 else k' := by
    intro t' k' h
    obtain ⟨hwas, hlt⟩ := hattached t' k' h
    refine ⟨_, ?_, ?_, rfl⟩
    · rw [ProbeRun.inst, hdrivers]
      by_cases ht : t' = t
      · subst ht
        have hlt := hlt rfl
        by_cases hk' : k' = k
        · subst hk'
          have hne : (s.drivers t').count - 1 ≠ k' := by omega
          simp [ProbeDriver.disposeInstance, ProbeDriver.setRing, hlt, hne]
        · unfold ProbeDriver.disposeInstance ProbeDriver.setRing
          dsimp only
          split_ifs <;> simp_all
      · simp [ht]
    · split_ifs with heq
      · obtain ⟨rfl, rfl⟩ := heq
        unfold ProbeRun.Attached at hwas ⊢
        omega
      · exact hwas
  have honly : ∀ t' k' serial, s.Only t' k' serial →
      s'.Only t' (if t' = t ∧ k' = (s.drivers t).count - 1 then k else k') serial := by
    intro t' k' serial hold t'' k'' h hserial
    obtain ⟨k₀, heq, hwas, hk₀⟩ := hinst t'' k'' h
    obtain ⟨-, hlt⟩ := hattached t'' k'' h
    rw [heq] at hserial
    obtain ⟨rfl, rfl⟩ := hold t'' k₀ hwas hserial
    refine ⟨rfl, ?_⟩
    subst hk₀
    split_ifs with h₁ h₂ h₃
    · exact h₁.2
    · exact absurd ⟨h₁.1, rfl⟩ h₂
    · exact absurd (hlt h₃.1) (by omega)
    · rfl
  have hout : s'.out = s.out := by rw [← hs']; rfl
  have hstored : s'.stored = s.stored := by rw [← hs']; rfl
  have hnext : s'.next = s.next := by rw [← hs']; rfl
  refine ⟨?_, ?_, ?_, ?_, ?_, ?_, ?_⟩
  · intro t' k' h
    obtain ⟨k'', heq, hwas, -⟩ := hinst t' k' h
    rw [heq, hnext]
    exact hs.serial_lt t' k'' hwas
  · intro t' k' h
    obtain ⟨k'', heq, hwas, hk''⟩ := hinst t' k' h
    obtain ⟨-, hlt⟩ := hattached t' k' h
    rw [heq]
    have hnow := honly t' k'' _ (hs.unique t' k'' hwas)
    have hback : (if t' = t ∧ k'' = (s.drivers t).count - 1 then k else k'') = k' := by
      subst hk''
      split_ifs with h₁ h₂ h₃
      · exact h₁.2.symm
      · exact absurd ⟨h₁.1, rfl⟩ h₂
      · exact absurd (hlt h₃.1) (by omega)
      · rfl
    rwa [hback] at hnow
  · intro t' k' h
    obtain ⟨k'', heq, hwas, -⟩ := hinst t' k' h
    rw [heq]
    exact hs.sound t' k'' hwas
  · intro t' k' h
    obtain ⟨k'', heq, hwas, -⟩ := hinst t' k' h
    rw [heq, hout, hstored]
    exact hs.bytes t' k'' hwas
  · intro t' k' serial h
    have hread : (s.drivers t').reads k' = some serial := by
      rw [hdrivers] at h
      split_ifs at h with ht
      · rwa [ht, ← hcount.2]
      · exact h
    obtain ⟨hserial, hlt, hold⟩ := hs.reading t' k' serial hread
    -- neither slot of a move has a read
    have hstays : t' = t → k < (s.drivers t).count - 1 → k' ≠ k ∧ k' ≠ (s.drivers t).count - 1 := by
      rintro rfl hmove
      constructor
      · rintro rfl
        rw [(hidle hmove).1] at hread
        cases hread
      · rintro rfl
        rw [(hidle hmove).2] at hread
        cases hread
    have hsame : (s'.inst t' k').serial = (s.inst t' k').serial := by
      rw [ProbeRun.inst, hdrivers]
      by_cases ht : t' = t
      · subst ht
        rw [if_pos rfl]
        by_cases hmove : k < (s.drivers t').count - 1
        · have hne := (hstays rfl hmove).1
          simp [ProbeDriver.disposeInstance, ProbeDriver.setRing, hmove, hne]
        · by_cases hk' : k' = k
          · subst hk'
            simp [ProbeDriver.disposeInstance, ProbeDriver.setRing, hmove]
          · simp [ProbeDriver.disposeInstance, ProbeDriver.setRing, hmove, hk']
      · rw [if_neg ht]
    have hnow := honly t' k' serial hold
    have hback : (if t' = t ∧ k' = (s.drivers t).count - 1 then k else k') = k' := by
      split_ifs with hlast
      · have hlt := hk
        unfold ProbeRun.Attached at hlt
        by_contra hne
        exact (hstays hlast.1 (by omega)).2 hlast.2
      · rfl
    rw [hback] at hnow
    rw [hsame, hnext]
    exact ⟨hserial, hlt, hnow⟩
  · intro serial
    rw [hout, hstored]
    exact hs.shown serial
  · intro serial hle
    rw [hnext] at hle
    rw [hstored]
    exact hs.fresh serial hle

/-- A ring that gave bytes, or none while it has no memory. -/
theorem um9RingDequeue_sound {r : Ring UInt8} (h : r.Sound ringSize) (max : ℕ) :
    (um9RingDequeue ringSize r max).1.Sound ringSize ∧
      (um9RingDequeue ringSize r max).2 = (r.queue ringSize).take max ∧
      (um9RingDequeue ringSize r max).1.queue ringSize = (r.queue ringSize).drop max := by
  rcases h with hnone | hwf
  · have hid : um9RingDequeue ringSize r max = (r, []) := by simp only [um9RingDequeue, hnone]
    rw [hid, Ring.queue_none hnone]
    exact ⟨.inl hnone, by simp, by simp⟩
  · obtain ⟨hwf', hbytes, hqueue, -⟩ := um9RingDequeue_spec ringSize_ok hwf max
    exact ⟨.inr hwf', hbytes, hqueue⟩

/-- A ring that accepted bytes, or none while it has no memory. -/
theorem um9RingEnqueue_accepted {r : Ring UInt8} (h : r.Sound ringSize) (data : List UInt8) :
    (um9RingEnqueue ringSize r data).1.queue ringSize =
      r.queue ringSize ++ data.take (um9RingEnqueue ringSize r data).2 := by
  rcases h with hnone | hwf
  · have hid : um9RingEnqueue ringSize r data = (r, 0) := by simp only [um9RingEnqueue, hnone]
    rw [hid, List.take_zero, List.append_nil]
  · obtain ⟨-, hqueue, hcount, -⟩ := um9RingEnqueue_spec ringSize_ok hwf data
    rw [hqueue, hcount, Nat.min_comm, ← List.take_eq_take_min]

/-- A step that leaves bytes and interfaces alone. -/
theorem ProbeInv.same (hs : ProbeInv s) {loop : Option ProbeLoop} {quit : Bool} :
    ProbeInv { s with loop, quit } :=
  ⟨hs.serial_lt, hs.unique, hs.sound, hs.bytes, hs.reading, hs.shown, hs.fresh⟩

theorem ProbeInv.found (hs : ProbeInv s) (table : Option ℕ) : ProbeInv (s.found table) := by
  unfold ProbeRun.found
  rcases table with - | t
  · refine hs.printed fun serial => ?_
    split_ifs <;> rfl
  · dsimp only
    split_ifs with hold hcount
    · exact hs.printed fun serial => rfl
    · exact hs.printed fun serial => rfl
    · exact hs.printed fun serial => rfl

/-- A turn moves bytes from the ring to the screen. -/
theorem ProbeInv.turn (hs : ProbeInv s) (l : ProbeLoop) : ProbeInv (s.turn l) := by
  unfold ProbeRun.turn
  dsimp only
  by_cases hk : (s.drivers l.table).count ≤ l.i
  · have hnone : (s.drivers l.table).dequeueBytes l.i probeDequeueChunk =
        (s.drivers l.table, []) := if_pos hk
    have hsame : ({ s with loop := some { l with i := l.i + 1 } } : ProbeRun).setDriver l.table
        (s.drivers l.table) = { s with loop := some { l with i := l.i + 1 } } := by
      simp [ProbeRun.setDriver]
    rw [hnone, if_pos rfl, hsame]
    exact hs.same
  · have hsome : (s.drivers l.table).dequeueBytes l.i probeDequeueChunk = _ := if_neg hk
    rw [hsome]
    have hat : s.Attached l.table l.i := not_le.1 hk
    obtain ⟨hsound, htake, hdrop⟩ :=
      um9RingDequeue_sound (hs.sound _ _ hat) probeDequeueChunk
    have hqueue := List.take_append_drop probeDequeueChunk
      ((s.inst l.table l.i).ring.queue ringSize)
    rw [← htake, ← hdrop] at hqueue
    have hbytes := hs.bytes _ _ hat
    have hshown := hs.shown (s.inst l.table l.i).serial
    dsimp only
    split_ifs with hnil
    · rw [hnil, List.nil_append] at hqueue
      refine hs.setRing (s.drivers l.table).reads (hs.serial_lt _ _ hat)
        (hs.unique _ _ hat) (fun _ _ h => .inl h) (fun serial _ => ⟨rfl, rfl⟩)
        (fun _ => ⟨hsound, ?_⟩) hshown
      rw [hqueue]
      exact hbytes
    · have hself : printedBytes (s.inst l.table l.i).serial (s.out ++ [.iface
          (s.inst l.table l.i).serial l.i
          (um9RingDequeue ringSize (s.inst l.table l.i).ring probeDequeueChunk).2]) ++
          (um9RingDequeue ringSize (s.inst l.table l.i).ring probeDequeueChunk).1.queue ringSize =
          s.stored (s.inst l.table l.i).serial := by
        rw [printedBytes_append, printedBytes_singleton, ProbeOutput.bytesOf, if_pos rfl,
          List.append_assoc, hqueue, hbytes]
      refine hs.setRing (s.drivers l.table).reads (hs.serial_lt _ _ hat)
        (hs.unique _ _ hat) (fun _ _ h => .inl h) (fun serial hne => ⟨?_, rfl⟩)
        (fun _ => ⟨hsound, hself⟩) ⟨_, hself⟩
      rw [printedBytes_append, printedBytes_singleton, ProbeOutput.bytesOf, if_neg (Ne.symm hne),
        List.append_nil]
      rfl

/-- **A read that completes** moves bytes into the ring of its slot. -/
theorem ProbeInv.arrive (hs : ProbeInv s) {serial : ℕ}
    (hread : (s.drivers t).reads k = some serial) (data : List UInt8) (again : Bool) :
    ProbeInv (s.arrive t k serial data again) := by
  obtain ⟨rfl, hlt, honly⟩ := hs.reading t k serial hread
  refine hs.setRing _ hlt honly ?_ ?_ ?_ ?_
  · intro k' n h
    by_cases hk : k' = k
    · subst hk
      rw [Function.update_self] at h
      cases again with
      | true => exact .inr ⟨rfl, Option.some.inj h⟩
      | false => cases h
    · rw [Function.update_of_ne hk] at h
      exact .inl h
  · intro n hne
    exact ⟨rfl, Function.update_of_ne hne _ _⟩
  · intro hat
    obtain ⟨hsound, -⟩ := um9RingEnqueue_sound ringSize_ok (hs.sound t k hat) data
    refine ⟨hsound, ?_⟩
    rw [Function.update_self, um9RingEnqueue_accepted (hs.sound t k hat), ← List.append_assoc]
    exact congrArg (· ++ _) (hs.bytes t k hat)
  · rw [Function.update_self]
    exact (hs.shown _).trans (List.prefix_append _ _)

/-- **One step** keeps the invariant. -/
theorem probeStep_inv {s' : ProbeRun} {e : ProbeEvent} (hs : ProbeInv s) (hok : e.MoveOk s)
    (h : probeStep s e = some s') : ProbeInv s' := by
  cases e with
  | poll keys devices =>
    simp only [probeStep] at h
    split_ifs at h with hoff hquit
    · obtain rfl := Option.some.inj h
      exact hs.same
    · obtain rfl := Option.some.inj h
      exact hs.found _
  | dequeue =>
    simp only [probeStep] at h
    split at h
    · cases h
    · rename_i l hl
      split_ifs at h with hmore
      · obtain rfl := Option.some.inj h
        exact hs.turn l
      · obtain rfl := Option.some.inj h
        exact hs.same
  | read t k =>
    simp only [probeStep] at h
    split_ifs at h with hoff
    obtain rfl := Option.some.inj h
    obtain ⟨hk, -⟩ := not_or.1 hoff
    have hat : s.Attached t k := not_le.1 hk
    have hring : ({ (s.drivers t).setRing k (s.inst t k).ring with
        reads := Function.update (s.drivers t).reads k (s.inst t k).serial } : ProbeDriver) =
        { s.drivers t with
          reads := Function.update (s.drivers t).reads k (s.inst t k).serial } := by
      simp [ProbeDriver.setRing]
    rw [← hring]
    refine hs.setRing _ (hs.serial_lt t k hat) (hs.unique t k hat) ?_ (fun _ _ => ⟨rfl, rfl⟩)
      (fun _ => ⟨hs.sound t k hat, hs.bytes t k hat⟩) (hs.shown _)
    intro k' n h
    by_cases hk' : k' = k
    · subst hk'
      rw [Function.update_self] at h
      exact .inr ⟨rfl, Option.some.inj h⟩
    · rw [Function.update_of_ne hk'] at h
      exact .inl h
  | arrival t k data again =>
    simp only [probeStep] at h
    split at h
    · cases h
    · rename_i serial hread
      obtain rfl := Option.some.inj h
      exact hs.arrive hread data again
  | attach t identity =>
    simp only [probeStep] at h
    split_ifs at h
    obtain rfl := Option.some.inj h
    exact hs.attach identity hok
  | alloc t k buf =>
    simp only [probeStep] at h
    split_ifs at h with hoff
    obtain rfl := Option.some.inj h
    obtain ⟨hk, hbuf⟩ := not_or.1 hoff
    have hat : s.Attached t k := not_le.1 hk
    have hnone : (s.inst t k).ring.buf = none := by simpa using hbuf
    -- nothing was stored without memory
    have hempty := hs.bytes t k hat
    rw [Ring.queue_none hnone, List.append_nil] at hempty
    refine hs.setRing (s.drivers t).reads (hs.serial_lt t k hat) (hs.unique t k hat)
      (fun _ _ h => .inl h) (fun _ _ => ⟨rfl, rfl⟩)
      (fun _ => ⟨Ring.sound_zero _ rfl rfl, ?_⟩) (hs.shown _)
    rw [← hempty]
    simp [Ring.queue, sub32]
  | remove t k =>
    simp only [probeStep] at h
    split_ifs at h with hoff
    obtain rfl := Option.some.inj h
    exact hs.remove (not_le.1 hoff) hok

end

theorem ProbeInv.boot (version : ℕ → ℕ) : ProbeInv (ProbeRun.boot version) := by
  constructor <;> simp [ProbeRun.boot, ProbeRun.Attached, printedBytes]

/-- **Every run** whose moves are quiet: the invariant holds, whatever is attached, removed or
    received between two calls of the probe. -/
theorem probe_inv {version : ℕ → ℕ} {es : List ProbeEvent} {s : ProbeRun}
    (hok : RunOk probeStep (fun s e => e.MoveOk s) (ProbeRun.boot version) es)
    (h : runEvents probeStep (ProbeRun.boot version) es = some s) : ProbeInv s :=
  (Reach.of_run hok h).inv (ProbeInv.boot version) fun _ _ _ hs hok => probeStep_inv hs hok

/-! ## Catching up -/

/-- The slots from `lo` up to `hi` have given a chunk. -/
structure ProbeRun.Drained (t lo hi : ℕ) (s s' : ProbeRun) : Prop where
  quit : s'.quit = s.quit
  version : (s'.drivers t).version = (s.drivers t).version
  count : (s'.drivers t).count = (s.drivers t).count
  stored : s'.stored = s.stored
  insts : ∀ k, s.Attached t k → (s'.inst t k).serial = (s.inst t k).serial ∧
    (s'.inst t k).ring.queue ringSize =
      if lo ≤ k ∧ k < hi then ((s.inst t k).ring.queue ringSize).drop probeDequeueChunk
      else (s.inst t k).ring.queue ringSize

section
variable {s : ProbeRun} {t : ℕ}

theorem ProbeRun.Drained.none {s' : ProbeRun} (i : ℕ) (hquit : s'.quit = s.quit)
    (hdrivers : s'.drivers = s.drivers) (hstored : s'.stored = s.stored) :
    ProbeRun.Drained t i i s s' := by
  refine ⟨hquit, by rw [hdrivers], by rw [hdrivers], hstored, fun k _ => ?_⟩
  rw [ProbeRun.inst, hdrivers, if_neg (by omega)]
  exact ⟨rfl, rfl⟩

theorem ProbeRun.Drained.trans {s' s'' : ProbeRun} {lo mid hi : ℕ} (hlo : lo ≤ mid) (hhi : mid ≤ hi)
    (h : ProbeRun.Drained t lo mid s s') (h' : ProbeRun.Drained t mid hi s' s'') :
    ProbeRun.Drained t lo hi s s'' := by
  refine ⟨h'.quit.trans h.quit, h'.version.trans h.version, h'.count.trans h.count,
    h'.stored.trans h.stored, fun k hk => ?_⟩
  obtain ⟨hserial, hqueue⟩ := h.insts k hk
  obtain ⟨hserial', hqueue'⟩ := h'.insts k (by rwa [ProbeRun.Attached, h.count])
  refine ⟨hserial'.trans hserial, ?_⟩
  rw [hqueue', hqueue]
  by_cases hfirst : lo ≤ k ∧ k < mid
  · rw [if_neg (by omega), if_pos hfirst, if_pos (by omega)]
  · by_cases hsecond : mid ≤ k ∧ k < hi
    · rw [if_pos hsecond, if_neg hfirst, if_pos (by omega)]
    · rw [if_neg hsecond, if_neg hfirst, if_neg (by omega)]

/-- **One turn** takes a chunk from one slot. -/
theorem turn_drained (hs : ProbeInv s) (l : ProbeLoop) :
    ProbeRun.Drained l.table l.i (l.i + 1) s (s.turn l) ∧
      (s.turn l).loop = some { l with i := l.i + 1 } := by
  have hdrained : ∀ s' : ProbeRun, s'.quit = s.quit → s'.stored = s.stored →
      s'.drivers l.table = ((s.drivers l.table).dequeueBytes l.i probeDequeueChunk).1 →
      ProbeRun.Drained l.table l.i (l.i + 1) s s' := by
    intro s' hquit hstored hdriver
    have hkept : (s'.drivers l.table).version = (s.drivers l.table).version ∧
        (s'.drivers l.table).count = (s.drivers l.table).count := by
      rw [hdriver, ProbeDriver.dequeueBytes]
      split_ifs <;> exact ⟨rfl, rfl⟩
    refine ⟨hquit, hkept.1, hkept.2, hstored, fun k hk => ?_⟩
    rw [ProbeRun.inst, hdriver, ProbeDriver.dequeueBytes]
    by_cases hki : k = l.i
    · subst hki
      obtain ⟨-, -, hdrop⟩ := um9RingDequeue_sound (hs.sound _ _ hk) probeDequeueChunk
      rw [if_neg (not_le.2 hk), if_pos (by omega), ← hdrop]
      simp [ProbeDriver.setRing]
    · rw [if_neg (show ¬(l.i ≤ k ∧ k < l.i + 1) by omega)]
      split_ifs
      · exact ⟨rfl, rfl⟩
      · simp [ProbeDriver.setRing, hki]
  unfold ProbeRun.turn
  dsimp only
  split_ifs with hnil
  · exact ⟨hdrained _ rfl rfl (Function.update_self _ _ _), rfl⟩
  · exact ⟨hdrained _ rfl rfl (Function.update_self _ _ _), rfl⟩

/-- **The loop**, with nothing in between. -/
theorem turns_drained {j i count : ℕ} (hs : ProbeInv s) (hloop : s.loop = some ⟨t, i, count⟩)
    (hcount : i + j ≤ count) (hmax : i + j ≤ probeMaxInterfaces) :
    ∃ s', runEvents probeStep s (List.replicate j .dequeue) = some s' ∧ ProbeInv s' ∧
      s'.loop = some ⟨t, i + j, count⟩ ∧ ProbeRun.Drained t i (i + j) s s' := by
  induction j generalizing s i with
  | zero => exact ⟨s, rfl, hs, hloop, .none i rfl rfl rfl⟩
  | succ j ih =>
    have hstep : probeStep s .dequeue = some (s.turn ⟨t, i, count⟩) := by
      simp only [probeStep, hloop]
      rw [if_pos ⟨by omega, by omega⟩]
    obtain ⟨hfirst, hnext⟩ : ProbeRun.Drained t i (i + 1) s (s.turn ⟨t, i, count⟩) ∧
        (s.turn ⟨t, i, count⟩).loop = some ⟨t, i + 1, count⟩ := turn_drained hs ⟨t, i, count⟩
    have hs₁ := probeStep_inv (e := .dequeue) hs trivial hstep
    obtain ⟨s', hrun, hs', hloop', hrest⟩ := ih hs₁ hnext (by omega) (by omega)
    have hsum : i + 1 + j = i + (j + 1) := by omega
    rw [hsum] at hloop' hrest
    refine ⟨s', ?_, hs', hloop', hfirst.trans (by omega) (by omega) hrest⟩
    rw [List.replicate_succ, runEvents, hstep]
    exact hrun

/-- A poll, the turns of its loop and its end. -/
def quietPoll (count : ℕ) (p : KeyMap × List (Option ℕ)) : List ProbeEvent :=
  .poll p.1 p.2 :: (List.replicate (min count probeMaxInterfaces) .dequeue ++ [.dequeue])

/-- A poll that finds a usable table, while the quit key is up. -/
def Sees (t : ℕ) (p : KeyMap × List (Option ℕ)) : Prop :=
  probeKeyDown p.1 probeQuitKeycode = false ∧ probeFindDispatchTable p.2 = some t

/-- **A poll** takes a chunk from each of the first interfaces. -/
theorem quietPoll_drained {p : KeyMap × List (Option ℕ)} (hs : ProbeInv s) (hloop : s.loop = none)
    (hquit : s.quit = false) (hversion : 1 ≤ (s.drivers t).version) (hp : Sees t p) :
    ∃ s', runEvents probeStep s (quietPoll (s.drivers t).count p) = some s' ∧ ProbeInv s' ∧
      s'.loop = none ∧
      ProbeRun.Drained t 0 (min (s.drivers t).count probeMaxInterfaces) s s' := by
  have hstep : probeStep s (.poll p.1 p.2) = some (s.found (some t)) := by
    simp only [probeStep, hloop, hquit, hp.1, hp.2]
    rfl
  have hfound : (s.found (some t)).loop = some ⟨t, 0, (s.drivers t).count⟩ ∧
      ProbeRun.Drained t 0 0 s (s.found (some t)) := by
    have hnew : ¬(s.drivers t).version < probeMinDispatchTableVersion := Nat.not_lt.2 hversion
    unfold ProbeRun.found
    dsimp only
    rw [if_neg hnew]
    exact ⟨rfl, .none 0 rfl rfl rfl⟩
  obtain ⟨hloop₁, hdrained₁⟩ := hfound
  have hs₁ := probeStep_inv (e := .poll p.1 p.2) hs trivial hstep
  obtain ⟨s₂, hrun₂, hs₂, hloop₂, hdrained₂⟩ := turns_drained hs₁ hloop₁
    (j := min (s.drivers t).count probeMaxInterfaces) (by omega) (by omega)
  rw [Nat.zero_add] at hloop₂ hdrained₂
  have hend : probeStep s₂ .dequeue = some { s₂ with loop := none } := by
    simp only [probeStep, hloop₂]
    rw [if_neg (by omega)]
  refine ⟨{ s₂ with loop := none }, ?_, probeStep_inv (e := .dequeue) hs₂ trivial hend, rfl, ?_⟩
  · have hlast : runEvents probeStep s₂ [.dequeue] = some { s₂ with loop := none } := by
      rw [runEvents, hend]
      rfl
    rw [quietPoll, runEvents, hstep, Option.bind_some, runEvents_append, hrun₂, Option.bind_some,
      hlast]
  · have hall := hdrained₁.trans le_rfl (Nat.zero_le _) hdrained₂
    exact ⟨hall.quit, hall.version, hall.count, hall.stored, hall.insts⟩

/-- **Several polls**: every one takes a chunk from each of the first interfaces. -/
theorem quietPolls_drained {ps : List (KeyMap × List (Option ℕ))} (hs : ProbeInv s)
    (hloop : s.loop = none) (hquit : s.quit = false) (hversion : 1 ≤ (s.drivers t).version)
    (hps : ∀ p ∈ ps, Sees t p) {k : ℕ} (hat : s.Attached t k) (hk : k < probeMaxInterfaces) :
    ∃ s', runEvents probeStep s (ps.flatMap (quietPoll (s.drivers t).count)) = some s' ∧
      ProbeInv s' ∧ s'.stored = s.stored ∧ s'.Attached t k ∧
      (s'.inst t k).serial = (s.inst t k).serial ∧
      (s'.inst t k).ring.queue ringSize =
        ((s.inst t k).ring.queue ringSize).drop (ps.length * probeDequeueChunk) := by
  induction ps generalizing s with
  | nil => exact ⟨s, rfl, hs, rfl, hat, rfl, by simp⟩
  | cons p ps ih =>
    obtain ⟨s₁, hrun₁, hs₁, hloop₁, hdrained⟩ :=
      quietPoll_drained hs hloop hquit hversion (hps p List.mem_cons_self)
    obtain ⟨hserial₁, hqueue₁⟩ := hdrained.insts k hat
    rw [if_pos ⟨Nat.zero_le k, lt_min hat hk⟩] at hqueue₁
    obtain ⟨s₂, hrun₂, hs₂, hstored₂, hat₂, hserial₂, hqueue₂⟩ := ih hs₁ hloop₁
      (hdrained.quit.trans hquit) (by rw [hdrained.version]; exact hversion)
      (fun q hq => hps q (List.mem_cons_of_mem p hq)) (by rwa [ProbeRun.Attached, hdrained.count])
    rw [hdrained.count] at hrun₂
    refine ⟨s₂, ?_, hs₂, hstored₂.trans hdrained.stored, hat₂, hserial₂.trans hserial₁, ?_⟩
    · rw [List.flatMap_cons, runEvents_append, hrun₁, Option.bind_some, hrun₂]
    · rw [hqueue₂, hqueue₁, List.drop_drop, List.length_cons, Nat.succ_mul, Nat.add_comm]

end

/-- **The probe shows what was received**, and no more: in every run whose moves are quiet, what
    was printed for an interface begins what its reads have stored, and the rest waits in the
    ring as long as the interface is there. -/
theorem probe_conserves {version : ℕ → ℕ} {es : List ProbeEvent} {s : ProbeRun}
    (hok : RunOk probeStep (fun s e => e.MoveOk s) (ProbeRun.boot version) es)
    (h : runEvents probeStep (ProbeRun.boot version) es = some s) :
    (∀ serial, printedBytes serial s.out <+: s.stored serial) ∧
      ∀ t k, s.Attached t k →
        printedBytes (s.inst t k).serial s.out ++ (s.inst t k).ring.queue ringSize =
          s.stored (s.inst t k).serial :=
  ⟨(probe_inv hok h).shown, (probe_inv hok h).bytes⟩

/-- An interface with its ring and a read in flight. -/
def probeAttach : List ProbeEvent :=
  [.attach 0 ⟨0x0582, 0x0040, 0, 1, 3, 0, 64⟩, .alloc 0 0 fun _ => 0, .read 0 0]

/-- Two packets for it. -/
def probeEvents : List ProbeEvent :=
  probeAttach ++ [.arrival 0 0 [0x09, 0x90, 0x3C, 0x57, 0x08, 0x80, 0x3C, 0x40] true]

/-- No key is down. -/
def noKeys : KeyMap := Vector.replicate 16 0

/-- A poll prints them; then another interface is attached, and the first one is removed with
    its read aborted, so that the other one moves. -/
def probeMoves : List ProbeEvent :=
  probeEvents ++ [.poll noKeys [none, some 0], .dequeue,
    .attach 0 ⟨0x0582, 0x0040, 1, 1, 3, 0, 64⟩, .arrival 0 0 [] false, .remove 0 0, .dequeue]

theorem probe_conserves_poll : ∃ s,
    runEvents probeStep (.boot fun _ => 2) probeMoves = some s ∧
    printedBytes 0 s.out = [0x09, 0x90, 0x3C, 0x57, 0x08, 0x80, 0x3C, 0x40] ∧
    ∀ serial, printedBytes serial s.out <+: s.stored serial := by
  have hsome : (runEvents probeStep (.boot fun _ => 2) probeMoves).map (printedBytes 0 ·.out) =
      some [0x09, 0x90, 0x3C, 0x57, 0x08, 0x80, 0x3C, 0x40] := by
    decide +kernel
  obtain ⟨s, hs, hshown⟩ := Option.map_eq_some_iff.1 hsome
  exact ⟨s, hs, hshown, (probe_conserves (by decide +kernel) hs).1⟩

/-- Without the condition bytes are lost: an interface moves while its read is in flight, and
    what the read brings is in no ring of an interface. -/
theorem probe_moved_loses : ∃ es s, runEvents probeStep (.boot fun _ => 2) es = some s ∧
    s.Attached 0 0 ∧ (s.inst 0 0).serial = 1 ∧
    printedBytes 1 s.out ++ (s.inst 0 0).ring.queue ringSize = [] ∧ s.stored 1 = [0x09] := by
  refine ⟨[.attach 0 ⟨0x0582, 0x0040, 0, 1, 3, 0, 64⟩, .attach 0 ⟨0x0582, 0x0040, 1, 1, 3, 0, 64⟩,
    .alloc 0 1 fun _ => 0, .read 0 1, .remove 0 0, .arrival 0 1 [0x09] true], _, rfl, ?_⟩
  decide +kernel

/-- **Nothing waits for ever**: after as many polls as a ring has chunks, with nothing received in
    between, everything is printed that the reads of an interface have stored. -/
theorem probe_catches_up {version : ℕ → ℕ} {es : List ProbeEvent} {s : ProbeRun}
    (hok : RunOk probeStep (fun s e => e.MoveOk s) (ProbeRun.boot version) es)
    (h : runEvents probeStep (ProbeRun.boot version) es = some s) (hloop : s.loop = none)
    (hquit : s.quit = false) {t : ℕ} (hversion : 1 ≤ (s.drivers t).version)
    {ps : List (KeyMap × List (Option ℕ))} (hps : ∀ p ∈ ps, Sees t p)
    (hlen : ringSize ≤ ps.length * probeDequeueChunk) {k : ℕ} (hat : s.Attached t k)
    (hk : k < probeMaxInterfaces) :
    ∃ s', runEvents probeStep s (ps.flatMap (quietPoll (s.drivers t).count)) = some s' ∧
      printedBytes (s.inst t k).serial s'.out = s.stored (s.inst t k).serial := by
  have hs := probe_inv hok h
  obtain ⟨s', hrun, hs', hstored, hat', hserial, hqueue⟩ :=
    quietPolls_drained hs hloop hquit hversion hps hat hk
  refine ⟨s', hrun, ?_⟩
  have hsize : ((s.inst t k).ring.queue ringSize).length ≤ ringSize := by
    rcases hs.sound _ _ hat with hnone | hwf
    · rw [Ring.queue_none hnone]
      exact Nat.zero_le _
    · exact Ring.length_queue_le hwf
  rw [List.drop_of_length_le (hsize.trans hlen)] at hqueue
  have hbytes := hs'.bytes _ _ hat'
  rwa [hqueue, List.append_nil, hserial, hstored] at hbytes

/-- The probe before it has polled. -/
def probeReceived : ProbeRun :=
  (runEvents probeStep (.boot fun _ => 2) probeEvents).getD (.boot fun _ => 2)

theorem probe_catches_up_received : ∃ s',
    runEvents probeStep probeReceived
      ((List.replicate 64 (noKeys, [some 0])).flatMap (quietPoll 1)) = some s' ∧
    printedBytes 0 s'.out = [0x09, 0x90, 0x3C, 0x57, 0x08, 0x80, 0x3C, 0x40] := by
  have hsees : ∀ p ∈ List.replicate 64 (noKeys, [some 0]), Sees 0 p := by
    intro p hp
    obtain rfl := List.eq_of_mem_replicate hp
    exact ⟨rfl, rfl⟩
  have hrun : runEvents probeStep (.boot fun _ => 2) probeEvents = some probeReceived := rfl
  have hserial : (probeReceived.inst 0 0).serial = 0 := rfl
  obtain ⟨s', hpolls, hshown⟩ := probe_catches_up (by decide +kernel) hrun rfl rfl (by decide) hsees
    (by decide) (show probeReceived.Attached 0 0 by decide) (by decide)
  rw [hserial] at hshown
  exact ⟨s', hpolls, hshown.trans (by decide +kernel)⟩

end Usbmidi9
