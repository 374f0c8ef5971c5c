/-
  USBMIDI9 — removal notifications and the compaction of the registry.

  `RegInv` is the invariant of the registry: every claimed slot is settled, no
  call is outstanding on an unclaimed one, and the instances that a
  notification has passed, or found quiet, are gone for good.  It holds in
  every run whose events meet two conditions:

  * `RegistryEvent.AbortOk`: no pipe abort is refused while the instance's second
    `USBAllocMem` is outstanding.  The driver takes a refused abort for the end
    of the call, which is true of a bulk read only;
  * `RegistryEvent.RelocateOk`: the last slot, which a finalize is about to move,
    is idle.

  `removal_safe` and `compaction_safe` are the results; `removal_unsafe` and
  `compaction_unsafe` are runs without the conditions.
-/
import Usbmidi9.Classic.Registry

namespace Usbmidi9

/-! ## Conditions -/

/-- No abort is refused while the second `USBAllocMem` is outstanding. -/
def NotifyPhase.AbortOk (s : Registry) (accepted : Bool) : NotifyPhase → Prop
  | .abort i => accepted = true ∨ (s.inst i).bulkInPipe = 0 ∨
      (s.inst i).pb.usbRefcon ≠ kAllocReadBufferState ||| kCompletionPending
  | _ => True

/-- A removal notification has returned `kUSBNoErr` since the interface was
    initialised. -/
def Quieted (s : Registry) (interfaceRef : ℕ) : Prop :=
  ∀ k < s.count, (s.inst k).interfaceRef = interfaceRef → (s.inst k).conn < s.quietBelow

/-- The slot that the finalize moves has no pending call. -/
def RelocateOk (s : Registry) (interfaceRef : ℕ) : Prop :=
  ∀ i ∈ finalizeIndex s interfaceRef, i < s.count - 1 →
    (s.inst (s.count - 1)).pb.usbRefcon &&& kCompletionPending = 0

/-- Events other than finalize. -/
def RegistryEvent.NoFinalize : RegistryEvent → Prop
  | .finalize _ => False
  | _ => True

/-- Interfaces are finalized only after a removal notification let them. -/
def RegistryEvent.Disciplined (s : Registry) : RegistryEvent → Prop
  | .finalize ref => Quieted s ref
  | _ => True

/-- No refused abort ends a call that is not a read. -/
def RegistryEvent.AbortOk (s : Registry) : RegistryEvent → Prop
  | .notifyStep accepted => s.notify.AbortOk s accepted
  | _ => True

/-- A finalize moves an idle instance, or none. -/
def RegistryEvent.RelocateOk (s : Registry) : RegistryEvent → Prop
  | .finalize ref => Usbmidi9.RelocateOk s ref
  | _ => True

section
variable (s : Registry)

instance (accepted : Bool) : (p : NotifyPhase) → Decidable (p.AbortOk s accepted)
  | .abort _ => inferInstanceAs (Decidable (_ ∨ _ ∨ _))
  | .idle | .mark .. | .unhook .. | .unref .. | .test .. | .refused _ | .clear .. | .returned _ =>
    isTrue trivial

instance (ref : ℕ) : Decidable (Quieted s ref) := inferInstanceAs (Decidable (∀ k < s.count, _))

instance (ref : ℕ) : Decidable (RelocateOk s ref) :=
  inferInstanceAs (Decidable (∀ i ∈ finalizeIndex s ref, _))

instance : (e : RegistryEvent) → Decidable e.NoFinalize
  | .finalize _ => isFalse id
  | .init .. | .setEventCallback .. | .completion .. | .notify | .notifyStep _ => isTrue trivial

instance : (e : RegistryEvent) → Decidable (e.Disciplined s)
  | .finalize ref => inferInstanceAs (Decidable (Quieted s ref))
  | .init .. | .setEventCallback .. | .completion .. | .notify | .notifyStep _ => isTrue trivial

instance : (e : RegistryEvent) → Decidable (e.AbortOk s)
  | .notifyStep accepted => inferInstanceAs (Decidable (s.notify.AbortOk s accepted))
  | .init .. | .setEventCallback .. | .completion .. | .notify | .finalize _ => isTrue trivial

instance : (e : RegistryEvent) → Decidable (e.RelocateOk s)
  | .finalize ref => inferInstanceAs (Decidable (RelocateOk s ref))
  | .init .. | .setEventCallback .. | .completion .. | .notify | .notifyStep _ => isTrue trivial

end

/-! ## The invariant -/

/-- An instance that will not issue a call any more and has none outstanding. -/
def Gone (s : Registry) (k : ℕ) : Prop := (s.inst k).removing = true ∧ s.calls k = []

/-- Every claimed slot below `i` is gone. -/
def Past (s : Registry) (i : ℕ) : Prop := ∀ k < i, k < s.count → Gone s k

/-- An instance whose read was dropped: only its pending bit is left. -/
structure Dropped (m : Machine) : Prop where
  calls : m.calls = []
  removing : m.inst.removing = true
  depth : m.inst.transDepth = 0
  next : NextOk m.clearPending

/-- The slot whose pending bit a notification is about to clear. -/
def NotifyPhase.dropped : NotifyPhase → Option ℕ
  | .refused i | .clear i _ => some i
  | _ => none

/-- The slots, apart from where the notification is; `d` is the dropped one. -/
structure SlotsInv (d : Option ℕ) (s : Registry) : Prop where
  settled : ∀ k < s.count, d ≠ some k → Settled (s.machine k)
  dropped : ∀ k ∈ d, k < s.count ∧ Dropped (s.machine k)
  unclaimed : ∀ k, s.count ≤ k → s.calls k = []
  conns : ∀ k < s.count, (s.inst k).conn < s.nextConn
  quietBelow : s.quietBelow ≤ s.nextConn
  quiet : ∀ k < s.count, (s.inst k).conn < s.quietBelow → Gone s k
  touched : ∀ k n, .touch k n ∈ s.trace → n = 0

/-- Where the notification is. -/
def NotifyPhase.Ok (s : Registry) : NotifyPhase → Prop
  | .idle => True
  | .mark i busy => busy = false → Past s i
  | .unhook i busy | .unref i busy | .test i busy =>
    i < s.count ∧ (s.inst i).removing = true ∧ (busy = false → Past s i)
  | .abort i => i < s.count ∧ (s.inst i).removing = true
  | .refused _ => True
  | .clear i w => w = (s.inst i).pb.usbRefcon
  | .returned busy => busy = false → Past s s.count

/-- **The invariant** of the registry. -/
structure RegInv (s : Registry) : Prop where
  slots : SlotsInv s.notify.dropped s
  phase : s.notify.Ok s

theorem RegInv.boot (slots : ℕ → Instance) : RegInv (.boot slots) where
  slots := ⟨by simp [Registry.boot], by simp [Registry.boot, NotifyPhase.dropped],
    fun _ _ => rfl, by simp [Registry.boot], le_rfl, by simp [Registry.boot],
    by simp [Registry.boot]⟩
  phase := trivial

/-! ## Machines -/

/-- A machine with another trace and a larger next number. -/
theorem Settled.forget {m : Machine} (h : Settled m) {n : ℕ} (hn : m.nextId ≤ n) :
    Settled ⟨m.inst, m.calls, n, []⟩ := by
  refine ⟨⟨by simp, h.clean.nodup.of_append_right, fun id hid => ?_⟩, h.depth, ?_⟩
  · exact (h.clean.fresh id (List.mem_append_right _ hid)).trans_le hn
  rcases h.state with ⟨c, hb⟩ | hs | ⟨hr, hrem⟩
  · exact .inl ⟨c, hb.calls, hb.isStage, hb.refcon, hb.pipe⟩
  · exact .inr (.inl ⟨hs.calls, hs.refcon⟩)
  · exact .inr (.inr ⟨⟨hr.calls, hr.isStage, hr.pipe⟩, hrem⟩)

/-- A store into a client's field, or into `removing`. -/
structure ClientStore (f : Instance → Instance) : Prop where
  pb : ∀ inst, (f inst).pb = inst.pb
  pipe : ∀ inst, (f inst).bulkInPipe = inst.bulkInPipe
  depth : ∀ inst, (f inst).transDepth = inst.transDepth
  conn : ∀ inst, (f inst).conn = inst.conn
  removing : ∀ inst, inst.removing = true → (f inst).removing = true

theorem ClientStore.next {f : Instance → Instance} (hf : ClientStore f) {m : Machine}
    (h : NextOk m) : NextOk (m.upd f) := by
  have hword : (m.upd f).refcon = m.refcon := congrArg UsbPB.usbRefcon (hf.pb _)
  have hpipe : (m.upd f).inst.bulkInPipe = m.inst.bulkInPipe := hf.pipe _
  rwa [NextOk, hword, hpipe]

theorem ClientStore.settled {f : Instance → Instance} (hf : ClientStore f) {m : Machine}
    (h : Settled m) : Settled (m.upd f) := by
  have hword : (m.upd f).refcon = m.refcon := congrArg UsbPB.usbRefcon (hf.pb _)
  have hpipe : (m.upd f).inst.bulkInPipe = m.inst.bulkInPipe := hf.pipe _
  refine ⟨⟨h.clean.issues, h.clean.nodup, h.clean.fresh⟩, (hf.depth _).trans h.depth, ?_⟩
  rcases h.state with ⟨c, hb⟩ | hs | ⟨hr, hrem⟩
  · exact .inl ⟨c, hb.calls, hb.isStage, hword.trans hb.refcon, fun hp => hb.pipe (hpipe ▸ hp)⟩
  · exact .inr (.inl ⟨hs.calls, hword.trans hs.refcon⟩)
  · refine .inr (.inr ⟨⟨hr.calls, ?_, ?_⟩, hf.removing _ hrem⟩)
    · rw [hword]; exact hr.isStage
    · rw [hword, hpipe]; exact hr.pipe

theorem ClientStore.dropped {f : Instance → Instance} (hf : ClientStore f) {m : Machine}
    (h : Dropped m) : Dropped (m.upd f) := by
  refine ⟨h.calls, hf.removing _ h.removing, (hf.depth _).trans h.depth, ?_⟩
  have hn := hf.next h.next
  have hword : (m.upd f).refcon = m.refcon := congrArg UsbPB.usbRefcon (hf.pb _)
  have hclear : (m.upd f).clearPending.refcon = (m.clearPending.upd f).refcon := by
    show (m.upd f).refcon &&& _ = (f m.clearPending.inst).pb.usbRefcon
    rw [hword, hf.pb]; rfl
  have hpipe : (m.upd f).clearPending.inst.bulkInPipe = (m.clearPending.upd f).inst.bulkInPipe := by
    show (f m.inst).bulkInPipe = (f m.clearPending.inst).bulkInPipe
    rw [hf.pipe, hf.pipe]; rfl
  rwa [NextOk, hclear, hpipe]

/-! ## Slots -/

theorem Registry.slots_updInst (s : Registry) (k : ℕ) (f : Instance → Instance) (j : ℕ) :
    (s.updInst k f).slots j = if j = k then ⟨f (s.inst k), s.calls k⟩ else s.slots j :=
  Function.update_apply ..

theorem Registry.machine_updInst (s : Registry) (k : ℕ) (f : Instance → Instance) (j : ℕ) :
    (s.updInst k f).machine j = if j = k then (s.machine k).upd f else s.machine j := by
  simp only [Registry.machine, Registry.inst, Registry.calls, Registry.slots_updInst]
  split_ifs <;> rfl

theorem Registry.calls_updInst (s : Registry) (k : ℕ) (f : Instance → Instance) (j : ℕ) :
    (s.updInst k f).calls j = s.calls j := by
  rw [Registry.calls, Registry.slots_updInst]
  split_ifs with h
  · rw [h]
  · rfl

theorem Registry.inst_updInst (s : Registry) (k : ℕ) (f : Instance → Instance) (j : ℕ) :
    (s.updInst k f).inst j = if j = k then f (s.inst k) else s.inst j := by
  rw [Registry.inst, Registry.slots_updInst]
  split_ifs <;> rfl

theorem Registry.slots_put (s : Registry) (k : ℕ) (m : Machine) (j : ℕ) :
    (s.put k m).slots j = if j = k then ⟨m.inst, m.calls⟩ else s.slots j :=
  Function.update_apply ..

theorem Registry.inst_put_self (s : Registry) (k : ℕ) (m : Machine) :
    (s.put k m).inst k = m.inst := by rw [Registry.inst, Registry.slots_put, if_pos rfl]

theorem Registry.calls_put_self (s : Registry) (k : ℕ) (m : Machine) :
    (s.put k m).calls k = m.calls := by rw [Registry.calls, Registry.slots_put, if_pos rfl]

theorem ClientStore.gone {f : Instance → Instance} (hf : ClientStore f) {s : Registry} {k j : ℕ}
    (h : Gone s j) : Gone (s.updInst k f) j := by
  refine ⟨?_, by rw [Registry.calls_updInst]; exact h.2⟩
  rw [Registry.inst_updInst]
  split_ifs with hj
  · exact hf.removing _ (hj ▸ h.1)
  · exact h.1

/-- A client's store keeps the slots. -/
theorem SlotsInv.store {d : Option ℕ} {s : Registry} (h : SlotsInv d s) {f : Instance → Instance}
    (hf : ClientStore f) (k : ℕ) : SlotsInv d (s.updInst k f) := by
  have hconn : ∀ j, ((s.updInst k f).inst j).conn = (s.inst j).conn := fun j => by
    rw [Registry.inst_updInst]
    split_ifs with hj
    · rw [hf.conn, hj]
    · rfl
  refine ⟨?_, ?_, ?_, ?_, h.quietBelow,
    ?_, h.touched⟩
  · intro j hj hd
    have hs := h.settled j hj hd
    rw [Registry.machine_updInst]
    split_ifs with hk
    · exact hf.settled (hk ▸ hs)
    · exact hs
  · intro j hj
    obtain ⟨hc, hd⟩ := h.dropped j hj
    refine ⟨hc, ?_⟩
    rw [Registry.machine_updInst]
    split_ifs with hk
    · exact hf.dropped (hk ▸ hd)
    · exact hd
  · intro j hj
    rw [Registry.calls_updInst]; exact h.unclaimed j hj
  · intro j hj
    rw [hconn]; exact h.conns j hj
  · intro j hj hq
    rw [hconn] at hq; exact hf.gone (h.quiet j hj hq)

theorem SlotsInv.log {d : Option ℕ} {s : Registry} (h : SlotsInv d s) {e : Entry}
    (he : ∀ k n, e ≠ .touch k n) : SlotsInv d (s.log e) := by
  refine ⟨h.settled, h.dropped, h.unclaimed, h.conns, h.quietBelow, h.quiet, ?_⟩
  intro k n hk
  rcases List.mem_append.1 hk with hk | hk
  · exact h.touched k n hk
  · exact absurd (List.mem_singleton.1 hk).symm (he k n)

/-- A machine ran in one slot, which may have been claimed for it. -/
theorem SlotsInv.ran {d : Option ℕ} {s s' : Registry} (h : SlotsInv d s) {k : ℕ}
    (hd : d ≠ some k) (hother : ∀ j ≠ k, s'.slots j = s.slots j)
    (hcount : ∀ j, j < s'.count ↔ j < s.count ∨ j = k) (hid : s.nextId ≤ s'.nextId)
    (hconn : s.nextConn ≤ s'.nextConn) (hquiet : s'.quietBelow = s.quietBelow)
    (hs : Settled (s'.machine k)) (hk : (s'.inst k).conn < s'.nextConn)
    (hfresh : s'.quietBelow ≤ (s'.inst k).conn)
    (htouch : ∀ j n, .touch j n ∈ s'.trace → n = 0) : SlotsInv d s' := by
  have hlt : ∀ j < s'.count, j ≠ k → j < s.count := fun j hj hne =>
    ((hcount j).1 hj).resolve_right hne
  refine ⟨?_, ?_, ?_, ?_,
    by rw [hquiet]; exact h.quietBelow.trans hconn, ?_, htouch⟩
  · intro j hj hdj
    by_cases hjk : j = k
    · exact hjk ▸ hs
    · have hm : s'.machine j = ⟨(s.machine j).inst, (s.machine j).calls, s'.nextId, []⟩ := by
        simp only [Registry.machine, Registry.inst, Registry.calls, hother j hjk]
      rw [hm]
      exact (h.settled j (hlt j hj hjk) hdj).forget hid
  · intro j hj
    obtain ⟨hc, hdr⟩ := h.dropped j hj
    have hjk : j ≠ k := fun hjk => hd (hjk ▸ hj)
    refine ⟨(hcount j).2 (.inl hc), ?_⟩
    have hm : s'.machine j = ⟨(s.machine j).inst, (s.machine j).calls, s'.nextId, []⟩ := by
      simp only [Registry.machine, Registry.inst, Registry.calls, hother j hjk]
    rw [hm]
    exact ⟨hdr.calls, hdr.removing, hdr.depth, hdr.next⟩
  · intro j hj
    have hjk : j ≠ k := fun hjk => absurd ((hcount j).2 (.inr hjk)) (by omega)
    rw [Registry.calls, hother j hjk]
    exact h.unclaimed j (Nat.le_of_not_lt fun hlt => absurd ((hcount j).2 (.inl hlt)) (by omega))
  · intro j hj
    by_cases hjk : j = k
    · exact hjk ▸ hk
    · rw [Registry.inst, hother j hjk]; exact (h.conns j (hlt j hj hjk)).trans_le hconn
  · intro j hj hq
    by_cases hjk : j = k
    · subst hjk; omega
    · simp only [Gone, Registry.inst, Registry.calls, hother j hjk] at hq ⊢
      exact h.quiet j (hlt j hj hjk) (hquiet ▸ hq)

/-- The slots do not look at the notification. -/
theorem SlotsInv.goto {d : Option ℕ} {s : Registry} (h : SlotsInv d s) (p : NotifyPhase) :
    SlotsInv d (s.goto p) :=
  ⟨h.settled, h.dropped, h.unclaimed, h.conns, h.quietBelow, h.quiet, h.touched⟩

/-! ## Disposing -/

/-- The entry of `USBMIDI9DeallocBlock`. -/
def dealloc (conn block : ℕ) : List Entry := if block = 0 then [] else [.dealloc conn block]

/-- The entries of the blocks that an instance holds. -/
def deallocs (inst : Instance) : List Entry :=
  dealloc inst.conn inst.ringBuffer ++ dealloc inst.conn inst.readBufferBase

/-- A block is given back; only the parameter block changes. -/
theorem deallocBlock_spec (block : ℕ) (m : Machine) :
    (∃ pb, (deallocBlock block m).inst = { m.inst with pb := pb }) ∧
      (deallocBlock block m).calls = m.calls ∧ (deallocBlock block m).nextId = m.nextId ∧
      (deallocBlock block m).trace = m.trace ++ dealloc m.inst.conn block := by
  unfold deallocBlock dealloc
  split_ifs
  · exact ⟨⟨m.inst.pb, rfl⟩, rfl, rfl, (List.append_nil _).symm⟩
  · exact ⟨⟨_, rfl⟩, rfl, rfl, rfl⟩

/-- Both blocks are given back. -/
theorem disposeBlocks_spec (m : Machine) : (disposeBlocks m).inst.client = m.inst.client ∧
    (disposeBlocks m).calls = m.calls ∧ (disposeBlocks m).nextId = m.nextId ∧
      (disposeBlocks m).trace = m.trace ++ deallocs m.inst := by
  obtain ⟨⟨pb, hinst⟩, hcalls, hid, htrace⟩ := deallocBlock_spec m.inst.ringBuffer m
  obtain ⟨⟨pb', hinst'⟩, hcalls', hid', htrace'⟩ :=
    deallocBlock_spec (deallocBlock m.inst.ringBuffer m).inst.readBufferBase
      (deallocBlock m.inst.ringBuffer m)
  refine ⟨?_, hcalls'.trans hcalls, hid'.trans hid, ?_⟩
  · simp only [disposeBlocks, Machine.upd, Instance.client]
    rw [hinst', hinst]
  · refine htrace'.trans ?_
    rw [htrace, hinst, List.append_assoc, deallocs]

theorem disposeSlot_calls (s : Registry) (i j : ℕ) : (disposeSlot s i).calls j = s.calls j := by
  show (s.put i (disposeBlocks (s.machine i))).calls j = s.calls j
  rw [Registry.calls, Registry.slots_put]
  split_ifs with hj
  · rw [(disposeBlocks_spec _).2.1, hj]
    rfl
  · rfl

theorem disposeSlot_slots {s : Registry} {i j : ℕ} (hj : j ≠ i) :
    (disposeSlot s i).slots j = s.slots j :=
  (Registry.slots_put s i _ j).trans (if_neg hj)

theorem disposeSlot_inst {s : Registry} {i j : ℕ} (hj : j ≠ i) :
    (disposeSlot s i).inst j = s.inst j := congrArg Slot.inst (disposeSlot_slots hj)

theorem moveInstance_calls (s : Registry) (i l j : ℕ) : (moveInstance s i l).calls j = s.calls j :=
  Registry.calls_updInst s i (fun _ => s.inst l) j

theorem moveInstance_inst (s : Registry) (i l j : ℕ) :
    (moveInstance s i l).inst j = if j = i then s.inst l else s.inst j :=
  Registry.inst_updInst s i (fun _ => s.inst l) j

theorem disposeSlot_client (s : Registry) (i j : ℕ) :
    ((disposeSlot s i).inst j).client = (s.inst j).client := by
  by_cases hj : j = i
  · subst hj
    exact (congrArg Instance.client (Registry.inst_put_self s j _)).trans (disposeBlocks_spec _).1
  · rw [disposeSlot_inst hj]

theorem disposeSlot_trace (s : Registry) (i : ℕ) : (disposeSlot s i).trace =
    s.trace ++ (deallocs (s.inst i) ++ [.touch i (s.calls i).length]) := by
  show (s.trace ++ (disposeBlocks (s.machine i)).trace) ++ [_] = _
  rw [(disposeBlocks_spec _).2.2.2, List.append_assoc]
  rfl

theorem disposeInstance_move {s : Registry} {i : ℕ} (h : i < s.count - 1) :
    disposeInstance s i = moveInstance (disposeSlot s i) i (s.count - 1) := if_pos h

theorem disposeInstance_last {s : Registry} {i : ℕ} (h : ¬i < s.count - 1) :
    disposeInstance s i = disposeSlot s i := if_neg h

theorem disposeInstance_calls (s : Registry) (i j : ℕ) :
    (disposeInstance s i).calls j = s.calls j := by
  by_cases hi : i < s.count - 1
  · rw [disposeInstance_move hi, moveInstance_calls, disposeSlot_calls]
  · rw [disposeInstance_last hi, disposeSlot_calls]

/-- The last instance takes the place of the disposed one. -/
theorem disposeInstance_inst {s : Registry} {i j : ℕ} (hj : j < s.count - 1) :
    (disposeInstance s i).inst j = if j = i then s.inst (s.count - 1) else s.inst j := by
  by_cases hi : i < s.count - 1
  · rw [disposeInstance_move hi, moveInstance_inst]
    split_ifs with hji
    · exact disposeSlot_inst hi.ne'
    · exact disposeSlot_inst hji
  · have hji : j ≠ i := by omega
    rw [disposeInstance_last hi, if_neg hji, disposeSlot_inst hji]

/-- What disposing writes: the blocks that are given back, and what it touches, the slot and
    the last one when it moves. -/
theorem disposeInstance_trace (s : Registry) (i : ℕ) :
    ∃ new, (disposeInstance s i).trace = s.trace ++ (deallocs (s.inst i) ++ new) ∧
      ∀ e ∈ new, ∃ k n, e = .touch k n ∧
        (n = (s.calls i).length ∨ i < s.count - 1 ∧ n = (s.calls (s.count - 1)).length) := by
  have hslot := disposeSlot_trace s i
  by_cases hi : i < s.count - 1
  · rw [disposeInstance_move hi]
    refine ⟨[.touch i (s.calls i).length,
        .touch (s.count - 1) ((disposeSlot s i).calls (s.count - 1)).length], ?_, ?_⟩
    · show (disposeSlot s i).trace ++ [_] = _
      rw [hslot, List.append_assoc, List.append_assoc]
      rfl
    · intro e he
      rcases List.mem_pair.1 he with rfl | rfl
      · exact ⟨_, _, rfl, .inl rfl⟩
      · exact ⟨_, _, rfl, .inr ⟨hi, congrArg List.length (disposeSlot_calls s i _)⟩⟩
  · rw [disposeInstance_last hi]
    exact ⟨[_], hslot, fun e he => ⟨_, _, List.mem_singleton.1 he, .inl rfl⟩⟩

/-- An entry of a block that is given back. -/
theorem mem_deallocs {inst : Instance} {e : Entry} (he : e ∈ deallocs inst) :
    ∃ block, e = .dealloc inst.conn block := by
  have hone : ∀ block, e ∈ dealloc inst.conn block → ∃ block, e = .dealloc inst.conn block := by
    intro block h
    unfold dealloc at h
    split_ifs at h
    · cases h
    · exact ⟨block, List.mem_singleton.1 h⟩
  exact (List.mem_append.1 he).elim (hone _) (hone _)

theorem disposeInstance_const (s : Registry) (i : ℕ) :
    (disposeInstance s i).count = s.count - 1 ∧ (disposeInstance s i).nextId = s.nextId ∧
      (disposeInstance s i).nextConn = s.nextConn ∧
      (disposeInstance s i).quietBelow = s.quietBelow ∧
      (disposeInstance s i).notify = s.notify := by
  have hid : (disposeSlot s i).nextId = s.nextId := (disposeBlocks_spec (s.machine i)).2.2.1
  unfold disposeInstance
  simp only
  split_ifs <;> exact ⟨rfl, hid, rfl, rfl, rfl⟩

/-- **Compaction** of a slot that is gone, with an idle last one. -/
theorem SlotsInv.dispose {s : Registry} (h : SlotsInv none s) {i : ℕ} (hi : i < s.count)
    (hgone : Gone s i) (hlast : i < s.count - 1 → s.calls (s.count - 1) = []) :
    SlotsInv none (disposeInstance s i) := by
  obtain ⟨hcount, hid, hconn, hquiet, -⟩ := disposeInstance_const s i
  -- a slot that stays claimed holds a claimed slot's instance, with its calls
  have hfrom : ∀ j < (disposeInstance s i).count, ∃ k < s.count,
      (disposeInstance s i).inst j = s.inst k ∧ (disposeInstance s i).calls j = s.calls k := by
    intro j hj
    rw [hcount] at hj
    rw [disposeInstance_inst hj, disposeInstance_calls]
    split_ifs with hji
    · refine ⟨s.count - 1, by omega, rfl, ?_⟩
      rw [hji, hgone.2, hlast (hji ▸ hj)]
    · exact ⟨j, by omega, rfl, rfl⟩
  refine ⟨?_, fun _ hk => absurd hk (by simp), ?_, ?_,
    by rw [hquiet, hconn]; exact h.quietBelow, ?_, ?_⟩
  · intro j hj _
    obtain ⟨k, hk, hinst, hcalls⟩ := hfrom j hj
    have hm : (disposeInstance s i).machine j = s.machine k := by
      rw [Registry.machine, hinst, hcalls, hid]; rfl
    exact hm ▸ h.settled k hk (by simp)
  · intro j hj
    rw [disposeInstance_calls]
    rw [hcount] at hj
    rcases Nat.lt_or_ge j s.count with hjc | hjc
    · obtain rfl : j = s.count - 1 := by omega
      rcases Nat.lt_or_ge i (s.count - 1) with hlt | hge
      · exact hlast hlt
      · obtain rfl : i = s.count - 1 := by omega
        exact hgone.2
    · exact h.unclaimed j hjc
  · intro j hj
    obtain ⟨k, hk, hinst, -⟩ := hfrom j hj
    rw [hinst, hconn]
    exact h.conns k hk
  · intro j hj hq
    obtain ⟨k, hk, hinst, hcalls⟩ := hfrom j hj
    rw [hinst, hquiet] at hq
    rw [Gone, hinst, hcalls]
    exact h.quiet k hk hq
  · intro k n hk
    obtain ⟨new, htrace, htouch⟩ := disposeInstance_trace s i
    rw [htrace] at hk
    rcases List.mem_append.1 hk with hk | hk
    · exact h.touched k n hk
    rcases List.mem_append.1 hk with hk | hk
    · obtain ⟨block, he⟩ := mem_deallocs hk
      cases he
    obtain ⟨_, _, he, hn⟩ := htouch _ hk
    cases he
    rcases hn with rfl | ⟨hlt, rfl⟩
    · rw [hgone.2]; rfl
    · rw [hlast hlt]; rfl

/-! ## Notifications -/

theorem clientStore_setRemoving : ClientStore .setRemoving :=
  ⟨fun _ => rfl, fun _ => rfl, fun _ => rfl, fun _ => rfl, fun _ _ => rfl⟩

theorem clientStore_unhook : ClientStore .unhook :=
  ⟨fun _ => rfl, fun _ => rfl, fun _ => rfl, fun _ => rfl, fun _ h => h⟩

theorem clientStore_unref : ClientStore .unref :=
  ⟨fun _ => rfl, fun _ => rfl, fun _ => rfl, fun _ => rfl, fun _ h => h⟩

theorem ClientStore.past {f : Instance → Instance} (hf : ClientStore f) {s : Registry} {k i : ℕ}
    (h : Past s i) : Past (s.updInst k f) i := fun j hj hc => hf.gone (h j hj hc)

/-- A store of the notification, which goes on at `p`. -/
theorem RegInv.store {s : Registry} {f : Instance → Instance} (hf : ClientStore f) {i : ℕ}
    {busy : Bool} {p : NotifyPhase} (h : SlotsInv none s) (hi : i < s.count)
    (hrem : (f (s.inst i)).removing = true) (hpast : busy = false → Past s i)
    (hp : p = .unhook i busy ∨ p = .unref i busy ∨ p = .test i busy) :
    RegInv ((s.updInst i f).goto p) := by
  have hrem' : ((s.updInst i f).inst i).removing = true := by
    rw [Registry.inst_updInst, if_pos rfl]; exact hrem
  rcases hp with rfl | rfl | rfl
  all_goals exact ⟨(h.store hf i).goto _, hi, hrem', fun hb => hf.past (hpast hb)⟩

theorem NextOk.of_word {m : Machine} {w : UInt32} (h : m.refcon = w) (hs : IsStage w)
    (hp : m.inst.bulkInPipe ≠ 0 → kAllocReadBufferState ≤ w) : NextOk m :=
  .inr ⟨h ▸ hs, h ▸ hp⟩

/-- A refused abort drops a read, or finds nothing outstanding. -/
theorem Settled.dropped {m : Machine} (h : Settled m) (hr : m.inst.removing = true)
    (hp : m.inst.bulkInPipe ≠ 0) (hw : m.refcon ≠ kAllocReadBufferState ||| kCompletionPending) :
    Dropped { m with calls := m.calls.filter (·.stage ≠ kReadBulkInPipeState) } := by
  rcases h.state with ⟨c, hb⟩ | hs | ⟨hready, -⟩
  · have h3 := hb.pipe hp
    have hstage : c.stage = kReadBulkInPipeState := by
      rcases hb.isStage.cases with h | h | h | h | h
      · rw [h] at h3; exact absurd h3 (by decide)
      · rw [h] at h3; exact absurd h3 (by decide)
      · rw [h] at h3; exact absurd h3 (by decide)
      · exact absurd (by rw [hb.refcon, h]) hw
      · exact h
    have hword : m.refcon &&& ~~~kCompletionPending = kReadBulkInPipeState := by
      rw [hb.refcon, hstage]; decide
    exact ⟨by simp [hb.calls, hstage], hr, h.depth,
      .of_word hword (by decide) fun _ => by decide⟩
  · refine ⟨by simp [hs.calls], hr, h.depth, .inl ?_⟩
    show m.refcon &&& ~~~kCompletionPending = _
    rw [hs.refcon]; decide
  · exact ⟨by simp [hready.calls], hr, h.depth,
      .of_word hready.isStage.flags.2.2.1 hready.isStage hready.pipe⟩

/-- Dropped reads only change the calls. -/
theorem Registry.inst_dropReads (s : Registry) (i j : ℕ) : (s.dropReads i).inst j = s.inst j := by
  by_cases hj : j = i
  · subst hj; simp only [Registry.inst, Registry.dropReads, Function.update_self]
  · exact congrArg Slot.inst (Function.update_of_ne hj ..)

theorem Registry.calls_dropReads {s : Registry} {j : ℕ} (h : s.calls j = []) (i : ℕ) :
    (s.dropReads i).calls j = [] := by
  by_cases hj : j = i
  · subst hj
    simp only [Registry.calls, Registry.dropReads, Function.update_self] at h ⊢
    rw [h]
    rfl
  · exact (congrArg Slot.calls (Function.update_of_ne hj ..)).trans h

theorem SlotsInv.dropReads {s : Registry} (h : SlotsInv none s) {i : ℕ} (hi : i < s.count)
    (hdrop : Dropped ((s.dropReads i).machine i)) : SlotsInv (some i) (s.dropReads i) := by
  have hother : ∀ j ≠ i, (s.dropReads i).slots j = s.slots j := fun j hj =>
    Function.update_of_ne hj ..
  refine ⟨?_, ?_, ?_, ?_, h.quietBelow, ?_, h.touched⟩
  · intro j hj hd
    have hne : j ≠ i := fun hji => hd (congrArg some hji.symm)
    have hm : (s.dropReads i).machine j = s.machine j := by
      simp only [Registry.machine, Registry.inst, Registry.calls, hother j hne]; rfl
    exact hm ▸ h.settled j hj (by simp)
  · intro j hj
    cases hj; exact ⟨hi, hdrop⟩
  · intro j hj
    exact Registry.calls_dropReads (h.unclaimed j hj) i
  · intro j hj
    rw [Registry.inst_dropReads]; exact h.conns j hj
  · intro j hj hq
    rw [Registry.inst_dropReads] at hq
    obtain ⟨hr, hc⟩ := h.quiet j hj hq
    exact ⟨by rw [Registry.inst_dropReads]; exact hr, Registry.calls_dropReads hc i⟩

/-- Clearing the pending bit of a dropped read settles its instance. -/
theorem Dropped.settled {m : Machine} (h : Dropped m) (ht : m.trace = []) :
    Settled m.clearPending := by
  have hclean : Clean m.clearPending := by
    have htr : m.clearPending.trace = [] := ht
    have hcalls : m.clearPending.calls = [] := h.calls
    refine ⟨?_, ?_, ?_⟩ <;> simp [htr, hcalls, completed]
  refine ⟨hclean, h.depth, .inr ?_⟩
  rcases h.next with hr | ⟨hs, hp⟩
  · exact .inl ⟨h.calls, hr⟩
  · exact .inr ⟨⟨h.calls, hs, hp⟩, h.removing⟩

theorem SlotsInv.undrop {s : Registry} {i : ℕ} (h : SlotsInv (some i) s) :
    SlotsInv none (s.updInst i (.setRefcon ((s.inst i).pb.usbRefcon &&& ~~~kCompletionPending))) := by
  obtain ⟨hi, hdrop⟩ := h.dropped i rfl
  generalize hf : Instance.setRefcon ((s.inst i).pb.usbRefcon &&& ~~~kCompletionPending) = f
  have hm : (s.machine i).upd f = (s.machine i).clearPending := by subst hf; rfl
  have hconn : ∀ inst, (f inst).conn = inst.conn := fun _ => by subst hf; rfl
  have hrem : ∀ inst, (f inst).removing = inst.removing := fun _ => by subst hf; rfl
  refine ⟨?_, nofun, ?_, ?_, h.quietBelow, ?_,
    h.touched⟩
  · intro j hj _
    rw [Registry.machine_updInst]
    split_ifs with hji
    · rw [hm]; exact hdrop.settled rfl
    · exact h.settled j hj fun hd => hji (Option.some.inj hd).symm
  · intro j hj
    rw [Registry.calls_updInst]; exact h.unclaimed j hj
  · intro j hj
    rw [Registry.inst_updInst]
    split_ifs with hji
    · rw [hconn, ← hji]; exact h.conns j hj
    · exact h.conns j hj
  · intro j hj hq
    rw [Gone, Registry.calls_updInst]
    rw [Registry.inst_updInst] at hq ⊢
    split_ifs at hq ⊢ with hji
    · rw [hconn, ← hji] at hq
      rw [hrem, ← hji]; exact h.quiet j hj hq
    · exact h.quiet j hj hq

/-- A notification that returns noErr has found every instance gone. -/
theorem SlotsInv.return {s : Registry} (h : SlotsInv none s) {busy : Bool}
    (hb : busy = false → Past s s.count) : RegInv (notifyReturn s busy) := by
  refine ⟨⟨h.settled, nofun, h.unclaimed, h.conns, ?_, ?_, h.touched⟩, hb⟩
  · show (if busy then s.quietBelow else s.nextConn) ≤ s.nextConn
    cases busy
    · exact le_rfl
    · exact h.quietBelow
  · intro j hj hq
    cases busy
    · exact hb rfl j hj hj
    · exact h.quiet j hj hq

/-- **A step of a notification keeps the invariant.** -/
theorem notifyStep_inv {s s' : Registry} {accepted : Bool} (h : RegInv s)
    (hok : s.notify.AbortOk s accepted) (hs : notifyStep s accepted = some s') : RegInv s' := by
  obtain ⟨hslots, hphase⟩ := h
  rcases hn : s.notify with _ | ⟨i, busy⟩ | ⟨i, busy⟩ | ⟨i, busy⟩ | ⟨i, busy⟩ | i | i | ⟨i, w⟩ | busy
  all_goals
    rw [hn] at hslots hphase
    simp only [notifyStep, hn, reduceCtorEq] at hs
  case mark =>
    split_ifs at hs with hi <;> obtain rfl := Option.some.inj hs
    · exact .store clientStore_setRemoving hslots hi rfl hphase (.inl rfl)
    · exact hslots.return fun hb k hk hc => hphase hb k (by omega) hc
  case unhook =>
    obtain ⟨hi, hr, hpast⟩ := hphase
    obtain rfl := Option.some.inj hs
    have hstore := RegInv.store clientStore_unhook hslots hi hr hpast (.inr (.inl rfl))
    exact ⟨(hstore.slots.log (by simp)).goto _, hstore.phase⟩
  case unref =>
    obtain ⟨hi, hr, hpast⟩ := hphase
    obtain rfl := Option.some.inj hs
    exact .store clientStore_unref hslots hi hr hpast (.inr (.inr rfl))
  case test =>
    obtain ⟨hi, hr, hpast⟩ := hphase
    split_ifs at hs with hbit <;> obtain rfl := Option.some.inj hs
    · exact ⟨hslots.goto _, hi, hr⟩
    · -- the bit is clear: nothing is outstanding
      obtain ⟨hiff, hle⟩ := (hslots.settled i hi (Option.some_ne_none i).symm).pending_iff
      have hlen : (s.calls i).length ≠ 1 := fun hl => hbit (hiff.2 hl)
      have hcalls : s.calls i = [] := List.eq_nil_of_length_eq_zero <| by
        have hle' : (s.calls i).length ≤ 1 := hle
        omega
      refine ⟨hslots.goto _, ?_⟩
      intro hb k hk hc
      rcases Nat.lt_succ_iff_lt_or_eq.1 hk with hk | rfl
      · exact hpast hb k hk hc
      · exact ⟨hr, hcalls⟩
  case abort =>
    obtain ⟨hi, hr⟩ := hphase
    split_ifs at hs with href <;> obtain rfl := Option.some.inj hs
    · have hw : (s.inst i).pb.usbRefcon ≠ kAllocReadBufferState ||| kCompletionPending := by
        rw [hn] at hok
        rcases hok with ha | hp | hw
        · rw [href.2] at ha; cases ha
        · exact absurd hp href.1
        · exact hw
      have hdrop := (hslots.settled i hi (Option.some_ne_none i).symm).dropped hr href.1 hw
      refine ⟨(hslots.dropReads hi ?_).goto _, trivial⟩
      have hm : (s.dropReads i).machine i = { s.machine i with
          calls := (s.machine i).calls.filter (·.stage ≠ kReadBulkInPipeState) } := by
        simp only [Registry.machine, Registry.inst, Registry.calls, Registry.dropReads,
          Function.update_self]
      exact hm ▸ hdrop
    · exact ⟨hslots.goto _, nofun⟩
  case refused =>
    obtain rfl := Option.some.inj hs
    exact ⟨hslots.goto _, rfl⟩
  case clear =>
    obtain rfl := Option.some.inj hs
    obtain rfl : w = (s.inst i).pb.usbRefcon := hphase
    exact ⟨hslots.undrop.goto _, nofun⟩

/-! ## Events -/

/-- What a machine writes tells of no slot that was touched. -/
theorem Registry.touch_put {s : Registry} {k : ℕ} {m m' : Machine} (h : Kept m m')
    (ht : m.trace = []) {j n : ℕ} (hj : .touch j n ∈ (s.put k m').trace) : .touch j n ∈ s.trace := by
  obtain ⟨new, hnew, hown⟩ := h.trace
  rcases List.mem_append.1 hj with hj | hj
  · exact hj
  · rw [hnew, ht, List.nil_append] at hj
    exact ((hown _ hj).elim id id).elim

/-- A machine of the slots ran: its slot may have been claimed for it. -/
theorem SlotsInv.put {d : Option ℕ} {s₀ s : Registry} (h : SlotsInv d s₀) {k : ℕ} {m : Machine}
    (hd : d ≠ some k) (hother : ∀ j ≠ k, s.slots j = s₀.slots j)
    (hcount : ∀ j, j < s.count ↔ j < s₀.count ∨ j = k) (hid : s.nextId = s₀.nextId)
    (hconn : s₀.nextConn ≤ s.nextConn) (hquiet : s.quietBelow = s₀.quietBelow)
    (hk : (s.inst k).conn < s.nextConn) (hfresh : s.quietBelow ≤ (s.inst k).conn)
    (htouch : ∀ j n, .touch j n ∈ s.trace → n = 0) (hkept : Kept (s.machine k) m)
    (hs : Settled m) : SlotsInv d (s.put k m) := by
  have hinst : ((s.put k m).inst k).conn = (s.inst k).conn := by
    rw [Registry.inst_put_self]; exact congrArg Client.conn hkept.client
  refine h.ran hd ?_ hcount (hid ▸ hkept.nextId) hconn hquiet ?_ (hinst ▸ hk)
    (hinst ▸ hfresh) fun j n hj => htouch j n (Registry.touch_put hkept rfl hj)
  · intro j hj
    rw [Registry.slots_put, if_neg hj, hother j hj]
  · rw [Registry.machine, Registry.inst_put_self, Registry.calls_put_self]
    exact hs.forget le_rfl

section
variable {usl : ℕ → UslAnswer} {s s' : Registry}

theorem SlotsInv.init (h : SlotsInv none s) (d : InterfaceDescriptor) (ref : ℕ) :
    SlotsInv none (initializeInterface usl s d ref).1 := by
  unfold initializeInterface claimInstance
  split_ifs
  · exact h
  · exact h
  · exact h
  -- the first unclaimed slot
  simp only
  generalize ht : Registry.connect { s with count := s.count + 1 } s.count ref = t
  have hinst : t.inst s.count = initInstance ref s.nextConn (s.inst s.count) := by
    subst ht
    exact (Registry.inst_updInst _ s.count _ _).trans (if_pos rfl)
  have hcalls : t.calls s.count = [] := by
    subst ht
    exact (Registry.calls_updInst _ s.count _ _).trans (h.unclaimed _ le_rfl)
  have hconn : (t.inst s.count).conn = s.nextConn := by rw [hinst]; rfl
  have hnext : t.nextConn = s.nextConn + 1 := by subst ht; rfl
  have hquiet : t.quietBelow = s.quietBelow := by subst ht; rfl
  refine h.put (k := s.count) (Option.some_ne_none _).symm ?_ ?_ ?_
    (by omega) hquiet (by omega) (by rw [hconn, hquiet]; exact h.quietBelow) ?_
    (initiateTransaction_kept _ _) (startTransaction_settled ref s.nextConn (s.inst s.count) hinst
      hcalls ?_)
  · intro j hj
    subst ht
    exact (Registry.slots_updInst _ s.count _ j).trans (if_neg hj)
  · intro j
    subst ht
    exact Nat.lt_succ_iff_lt_or_eq
  · subst ht; rfl
  · intro j n hj
    subst ht
    rcases List.mem_append.1 hj with hj | hj
    · exact h.touched j n hj
    · cases List.mem_singleton.1 hj
  · have hcalls' : (t.machine s.count).calls = [] := hcalls
    exact ⟨nofun, by rw [hcalls']; exact List.nodup_nil, by rw [hcalls']; exact nofun⟩

theorem clientStore_setHook (callback : Option ℕ) (refcon : UInt32) :
    ClientStore (.setHook callback refcon) :=
  ⟨fun _ => rfl, fun _ => rfl, fun _ => rfl, fun _ => rfl, fun _ h => h⟩

theorem SlotsInv.setEventCallback (h : SlotsInv none s) (index : ℕ) (callback : Option ℕ)
    (refcon : UInt32) : SlotsInv none (setEventCallback s index callback refcon).1 := by
  unfold Usbmidi9.setEventCallback
  split_ifs
  · exact h
  · exact (h.store (clientStore_setHook callback refcon) index).log (by simp)

theorem finalizeIndex_spec {ref i : ℕ} (h : finalizeIndex s ref = some i) :
    i < s.count ∧ (s.inst i).interfaceRef = ref := by
  have hi := List.mem_of_find?_eq_some h
  exact ⟨List.mem_range.1 hi, by simpa using List.find?_some h⟩

theorem SlotsInv.finalize (h : SlotsInv none s) {ref : ℕ} (hq : Quieted s ref)
    (hr : RelocateOk s ref) : SlotsInv none (finalizeProc s ref) := by
  unfold finalizeProc
  split
  next i hi =>
    obtain ⟨hlt, href⟩ := finalizeIndex_spec hi
    refine h.dispose hlt (h.quiet i hlt (hq i hlt href)) ?_
    intro hmove
    obtain ⟨hiff, hle⟩ := (h.settled (s.count - 1) (by omega) nofun).pending_iff
    have hbit : (s.machine (s.count - 1)).refcon &&& kCompletionPending = 0 := hr i hi hmove
    apply List.eq_nil_of_length_eq_zero
    have hne : (s.calls (s.count - 1)).length ≠ 1 := fun hl => hiff.2 hl hbit
    have hle' : (s.calls (s.count - 1)).length ≤ 1 := hle
    omega
  next => exact h

/-- The notification does not notice a machine that ran. -/
theorem NotifyPhase.Ok.put {p : NotifyPhase} (h : p.Ok s) {k : ℕ} {m : Machine}
    (hcalls : s.calls k ≠ []) (hdrop : p.dropped ≠ some k) (hkept : Kept (s.machine k) m) :
    p.Ok (s.put k m) := by
  have hpast : ∀ {i}, Past s i → Past (s.put k m) i := fun h j hj hc => by
    obtain ⟨hr, he⟩ := h j hj hc
    have hne : j ≠ k := fun hjk => hcalls (hjk ▸ he)
    rw [Gone, Registry.inst, Registry.calls, Registry.slots_put, if_neg hne]
    exact ⟨hr, he⟩
  have hrem : ∀ {i}, (s.inst i).removing = true → ((s.put k m).inst i).removing = true := by
    intro i hr
    by_cases hik : i = k
    · subst hik
      rw [Registry.inst_put_self]
      exact (congrArg Client.removing hkept.client).trans hr
    · rw [Registry.inst, Registry.slots_put, if_neg hik]; exact hr
  cases p with
  | idle => trivial
  | mark i busy => exact fun hb => hpast (h hb)
  | unhook i busy => exact ⟨h.1, hrem h.2.1, fun hb => hpast (h.2.2 hb)⟩
  | unref i busy => exact ⟨h.1, hrem h.2.1, fun hb => hpast (h.2.2 hb)⟩
  | test i busy => exact ⟨h.1, hrem h.2.1, fun hb => hpast (h.2.2 hb)⟩
  | abort i => exact ⟨h.1, hrem h.2⟩
  | refused i => trivial
  | clear i w =>
    have hik : i ≠ k := fun hik => hdrop (congrArg some hik)
    apply Eq.trans h
    rw [Registry.inst, Registry.inst, Registry.slots_put, if_neg hik]
  | returned busy => exact fun hb => hpast (h hb)

/-- **A completion** runs the machine of its slot, which is claimed and not gone. -/
theorem RegInv.completion (h : RegInv s) {k id : ℕ} (hid : id ∈ (s.calls k).map Call.id)
    (r : UslResult) : RegInv (s.put k (completeCall usl k id r (s.machine k))) := by
  have hcalls : s.calls k ≠ [] := fun hc => by rw [hc] at hid; cases hid
  have hk : k < s.count := Nat.lt_of_not_le fun hk => hcalls (h.slots.unclaimed k hk)
  have hdrop : s.notify.dropped ≠ some k := fun hd => hcalls (h.slots.dropped k hd).2.calls
  have hkept : Kept (s.machine k) (completeCall usl k id r (s.machine k)) :=
    (Kept.finish _ id r).trans (completionProc_kept (initiateTransaction_kept _) _ _)
  have hfresh : s.quietBelow ≤ (s.inst k).conn :=
    Nat.le_of_not_lt fun hq => hcalls (h.slots.quiet k hk hq).2
  have hsame : ∀ j, j < s.count ↔ j < s.count ∨ j = k := fun j => by
    refine ⟨.inl, ?_⟩
    rintro (hj | rfl)
    · exact hj
    · exact hk
  exact ⟨h.slots.put hdrop (fun _ _ => rfl) hsame rfl le_rfl rfl (h.slots.conns k hk) hfresh
    h.slots.touched hkept (completeCall_settled (h.slots.settled k hk hdrop) hid r),
    h.phase.put hcalls hdrop hkept⟩

/-- A task-level call starts between notifications. -/
theorem RegInv.task (h : RegInv s) {f : Registry → Registry} (hs : s.task f = some s') :
    SlotsInv none (s.goto .idle) ∧ s' = f (s.goto .idle) := by
  unfold Registry.task at hs
  split_ifs at hs with hp
  have hslots := h.slots
  have hnone : s.notify.dropped = none := by
    cases hn : s.notify <;> rw [hn] at hp <;> first | rfl | cases hp
  rw [hnone] at hslots
  exact ⟨hslots.goto _, (Option.some.inj hs).symm⟩

theorem RegInv.of_idle (h : SlotsInv none s) (hn : s.notify = .idle) : RegInv s :=
  ⟨hn ▸ h, hn ▸ trivial⟩

theorem initializeInterface_notify (d : InterfaceDescriptor) (ref : ℕ) :
    (initializeInterface usl s d ref).1.notify = s.notify := by
  unfold initializeInterface claimInstance
  split_ifs <;> rfl

theorem setEventCallback_notify (index : ℕ) (callback : Option ℕ) (refcon : UInt32) :
    (setEventCallback s index callback refcon).1.notify = s.notify := by
  unfold setEventCallback
  split_ifs <;> rfl

theorem finalizeProc_notify (ref : ℕ) : (finalizeProc s ref).notify = s.notify := by
  unfold finalizeProc
  split
  · exact (disposeInstance_const s _).2.2.2.2
  · rfl

/-- **Every event** that meets the condition keeps the invariant. -/
theorem registryStep_inv {e : RegistryEvent} (h : RegInv s) (hd : e.Disciplined s)
    (ha : e.AbortOk s) (hr : e.RelocateOk s) (hs : registryStep usl s e = some s') : RegInv s' := by
  cases e with
  | init d ref =>
    simp only [registryStep] at hs
    obtain ⟨ht, rfl⟩ := h.task hs
    exact .of_idle (ht.init d ref) (initializeInterface_notify d ref)
  | setEventCallback index callback refcon =>
    simp only [registryStep] at hs
    obtain ⟨ht, rfl⟩ := h.task hs
    exact .of_idle (ht.setEventCallback ..) (setEventCallback_notify ..)
  | completion k id r =>
    simp only [registryStep] at hs
    split_ifs at hs with hid
    exact Option.some.inj hs ▸ h.completion hid r
  | notify =>
    simp only [registryStep] at hs
    obtain ⟨ht, rfl⟩ := h.task hs
    exact ⟨ht.goto _, fun _ k hk => absurd hk (Nat.not_lt_zero k)⟩
  | notifyStep accepted => exact notifyStep_inv h ha hs
  | finalize ref =>
    simp only [registryStep] at hs
    obtain ⟨ht, rfl⟩ := h.task hs
    exact .of_idle (ht.finalize hd hr) (finalizeProc_notify ref)

/-! ## Removal safety -/

/-- **A removal notification that returns `kUSBNoErr`** leaves no call outstanding
    on any instance. -/
theorem removal_safe {slots : ℕ → Instance}
    (h : Reach (registryStep usl) (fun s e => e.NoFinalize ∧ e.AbortOk s) (.boot slots) s)
    (hret : s.notify = .returned false) (k : ℕ) : s.calls k = [] := by
  have hinv : RegInv s := by
    apply h.inv (.boot slots)
    intro s e s' hs hok
    cases e with
    | finalize => exact hok.1.elim
    | _ => exact registryStep_inv hs trivial hok.2 trivial
  rcases Nat.lt_or_ge k s.count with hk | hk
  · have hpast := hinv.phase
    rw [hret] at hpast
    exact (hpast rfl k hk hk).2
  · exact hinv.slots.unclaimed k hk

end

/-- A descriptor that the driver supports. -/
def midiStreaming : InterfaceDescriptor := ⟨usbmidiInterfaceClass, usbmidiInterfaceSubClass, 1⟩

/-- A notification of `n` steps, whose abort is answered by `accepted`. -/
def notification (n : ℕ) (accepted : Bool) : List RegistryEvent :=
  .notify :: List.replicate n (.notifyStep accepted)

/-- The abort of the read is refused; the next notification lets the interface go. -/
theorem removal_safe_read : ∃ s,
    runEvents (registryStep mixedUsl) (.boot fun _ => default)
      (.init midiStreaming 5 :: .completion 0 3 (okResult 0 []) :: notification 8 false ++
        notification 5 false) = some s ∧
      s.calls 0 = [] := by
  have hrun : (runEvents (registryStep mixedUsl) (.boot fun _ => default)
      (.init midiStreaming 5 :: .completion 0 3 (okResult 0 []) :: notification 8 false ++
        notification 5 false)).map Registry.notify = some (.returned false) := by decide +kernel
  obtain ⟨s, hs, hret⟩ := Option.map_eq_some_iff.1 hrun
  exact ⟨s, hs, removal_safe (.of_run (by decide +kernel) hs) hret 0⟩

/-- **A refused abort during the second `USBAllocMem`** clears the pending bit of
    a call that still completes. -/
theorem removal_unsafe : ∃ s,
    Reach (registryStep mixedUsl) (fun _ e => e.NoFinalize) (.boot fun _ => default) s ∧
      s.notify = .returned false ∧ s.calls 0 = [⟨3, kAllocReadBufferState⟩] := by
  have hrun : (runEvents (registryStep mixedUsl) (.boot fun _ => default)
      (.init midiStreaming 5 :: notification 8 false ++ notification 5 false)).map
        (fun s => (s.notify, s.calls 0)) =
      some (.returned false, [⟨3, kAllocReadBufferState⟩]) := by decide +kernel
  obtain ⟨s, hs, heq⟩ := Option.map_eq_some_iff.1 hrun
  exact ⟨s, .of_run (by decide +kernel) hs, congrArg Prod.fst heq, congrArg Prod.snd heq⟩

/-! ## Compaction -/

/-- **Compaction never touches a slot with an outstanding call.** -/
theorem compaction_safe {usl : ℕ → UslAnswer} {slots : ℕ → Instance} {s : Registry}
    (h : Reach (registryStep usl) (fun s e => e.Disciplined s ∧ e.AbortOk s ∧ e.RelocateOk s)
      (.boot slots) s) {k n : ℕ} (ht : .touch k n ∈ s.trace) : n = 0 := by
  have hinv : RegInv s := h.inv (.boot slots) fun s e s' hs hok hst =>
    registryStep_inv hs hok.1 hok.2.1 hok.2.2 hst
  exact hinv.slots.touched k n ht

/-- A library whose calls all complete later. -/
def pendingUsl : ℕ → UslAnswer := fun _ => .pending

/-- Two interfaces are quiesced; the first is finalized, and the second moves. -/
theorem compaction_safe_two : ∃ s,
    runEvents (registryStep pendingUsl) (.boot fun _ => default)
      ([.init midiStreaming 10, .init midiStreaming 11] ++ notification 11 true ++
        [.completion 0 0 (okResult 0 []), .completion 1 1 (okResult 0 [])] ++
          notification 9 true ++ [.finalize 10]) = some s ∧
      .touch 1 0 ∈ s.trace ∧ ∀ k n, .touch k n ∈ s.trace → n = 0 := by
  have hrun : (runEvents (registryStep pendingUsl) (.boot fun _ => default)
      ([.init midiStreaming 10, .init midiStreaming 11] ++ notification 11 true ++
        [.completion 0 0 (okResult 0 []), .completion 1 1 (okResult 0 [])] ++
          notification 9 true ++ [.finalize 10])).map
        (fun s => decide (.touch 1 0 ∈ s.trace)) = some true := by decide +kernel
  obtain ⟨s, hs, ht⟩ := Option.map_eq_some_iff.1 hrun
  exact ⟨s, hs, of_decide_eq_true ht, fun _ _ => compaction_safe (.of_run (by decide +kernel) hs)⟩

/-- **An interface initialised between the notification and the finalize** is
    moved with its call outstanding. -/
theorem compaction_unsafe : ∃ s,
    Reach (registryStep pendingUsl) (fun s e => e.Disciplined s) (.boot fun _ => default) s ∧
      .touch 1 1 ∈ s.trace ∧ s.calls 1 = [⟨1, kAllocRingState⟩] := by
  have hrun : (runEvents (registryStep pendingUsl) (.boot fun _ => default)
      (.init midiStreaming 10 :: notification 6 true ++
        .completion 0 0 (okResult 0 []) :: notification 5 true ++
          [.init midiStreaming 11, .finalize 10])).map
        (fun s => (decide (.touch 1 1 ∈ s.trace), s.calls 1)) =
      some (true, [⟨1, kAllocRingState⟩]) := by decide +kernel
  obtain ⟨s, hs, heq⟩ := Option.map_eq_some_iff.1 hrun
  exact ⟨s, .of_run (by decide +kernel) hs, of_decide_eq_true (congrArg Prod.fst heq),
    congrArg Prod.snd heq⟩

end Usbmidi9
