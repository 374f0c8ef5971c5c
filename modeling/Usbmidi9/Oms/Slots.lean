/-
  USBMIDI9 — the hooks in a class driver's slots (`classic/usb_driver.c`).

  `HookTable.Move` is what a class driver does by itself with the hooks of its slots: a
  claimed slot keeps the hook that is in it, disposing moves the last slot's hook, and a
  removal notification clears one slot after the other.

  `registryStep_move` is the simulation: an event of the registry moves its hook table so,
  and `setEventCallback_hookTable` says the same of the call that the shim makes.
-/
import Usbmidi9.Classic.Removal
import Usbmidi9.Oms.Registration

namespace Usbmidi9

namespace HookTable

/-! ## Operations -/

/-- One more interface.  Its hook is left as the slot has it. -/
def claim (d : HookTable) : HookTable := { d with count := d.count + 1 }

/-- Interface `i` is disposed of: the last one moves into its slot. -/
def dispose (i : ℕ) (d : HookTable) : HookTable :=
  { d with
    count := d.count - 1
    hooks := if i < d.count - 1 then Function.update d.hooks i (d.hooks (d.count - 1))
      else d.hooks }

/-- A removal notification clears slot `i`. -/
def unhook (i : ℕ) (d : HookTable) : HookTable :=
  { d with hooks := Function.update d.hooks i false }

/-- The class driver is unloaded.  What is loaded in its place has no interface yet. -/
def unloaded (d : HookTable) : HookTable := { d with count := 0, hooks := fun _ => false }

/-- What a class driver does by itself. -/
inductive Move (d : HookTable) : HookTable → Prop
  | same : Move d d
  | claim : d.count < omsMaxInterfaces → Move d d.claim
  | dispose {i : ℕ} : i < d.count → Move d (d.dispose i)
  | unhook (i : ℕ) : Move d (d.unhook i)

/-! ## Who holds the hook -/

variable {d : HookTable}

theorem Holds.pos (h : d.Holds) : 0 < d.count := by
  obtain ⟨i, hi, -⟩ := h
  omega

/-- Every interface that is there is given the hook. -/
theorem holds_setHooks : (d.setHooks true omsMaxInterfaces).Holds ↔ 0 < d.count := by
  constructor
  · intro h
    exact Holds.pos (d := d.setHooks true omsMaxInterfaces) h
  · intro hpos
    exact ⟨0, hpos, if_pos ⟨by decide, hpos⟩⟩

theorem not_holds_setHooks (h : d.count ≤ omsMaxInterfaces) :
    ¬(d.setHooks false omsMaxInterfaces).Holds := by
  rintro ⟨i, hi, hhook⟩
  have hcleared : (d.setHooks false omsMaxInterfaces).hooks i = false :=
    if_pos ⟨hi.trans_le h, hi⟩
  rw [hcleared] at hhook
  cases hhook

theorem holds_claim : d.claim.Holds ↔ d.Holds ∨ d.hooks d.count = true := by
  constructor
  · rintro ⟨i, hi, hhook⟩
    rcases Nat.lt_succ_iff_lt_or_eq.1 hi with hlt | rfl
    · exact .inl ⟨i, hlt, hhook⟩
    · exact .inr hhook
  · rintro (⟨i, hi, hhook⟩ | hhook)
    · exact ⟨i, hi.trans (Nat.lt_succ_self _), hhook⟩
    · exact ⟨d.count, Nat.lt_succ_self _, hhook⟩

/-- The hook that moves was one of the table's. -/
theorem Holds.of_dispose {i : ℕ} (h : (d.dispose i).Holds) : d.Holds := by
  obtain ⟨j, hj, hhook⟩ := h
  have hj' : j < d.count - 1 := hj
  have hcases : (d.dispose i).hooks j = d.hooks j ∨
      (d.dispose i).hooks j = d.hooks (d.count - 1) := by
    show (if _ then Function.update _ _ _ else _ : ℕ → Bool) j = _ ∨
      (if _ then Function.update _ _ _ else _ : ℕ → Bool) j = _
    split_ifs
    · by_cases hji : j = i
      · subst hji
        exact .inr (Function.update_self ..)
      · exact .inl (Function.update_of_ne hji ..)
    · exact .inl rfl
  rcases hcases with heq | heq
  · exact ⟨j, by omega, heq ▸ hhook⟩
  · exact ⟨d.count - 1, by omega, heq ▸ hhook⟩

theorem Holds.of_unhook {i : ℕ} (h : (d.unhook i).Holds) : d.Holds := by
  obtain ⟨j, hj, hhook⟩ := h
  have hupdate : (d.unhook i).hooks j = if j = i then false else d.hooks j :=
    Function.update_apply ..
  rw [hupdate] at hhook
  split_ifs at hhook
  exact ⟨j, hj, hhook⟩

theorem not_holds_unloaded : ¬d.unloaded.Holds := by
  rintro ⟨i, hi, -⟩
  exact Nat.not_lt_zero i hi

end HookTable

/-! ## The registry -/

/-- The dispatch table of the class driver, for a client whose callback is `rx`. -/
def Registry.hookTable (rx : ℕ) (s : Registry) : HookTable :=
  ⟨omsDispatchMinVersion, true, s.count, fun i => decide ((s.inst i).eventCallback = some rx)⟩

section
variable {usl : ℕ → UslAnswer} {rx : ℕ} {s s' : Registry}

theorem Registry.hookTable_ext {hooks : ℕ → Bool} {n : ℕ} (hcount : s'.count = n)
    (hhooks : ∀ i, decide ((s'.inst i).eventCallback = some rx) = hooks i) :
    s'.hookTable rx = ⟨omsDispatchMinVersion, true, n, hooks⟩ := by
  rw [hookTable, hcount, funext hhooks]

/-- A store that leaves the callback alone. -/
theorem Registry.hookTable_updInst (s : Registry) (k : ℕ) {f : Instance → Instance}
    (hf : (f (s.inst k)).eventCallback = (s.inst k).eventCallback) :
    (s.updInst k f).hookTable rx = s.hookTable rx := by
  refine hookTable_ext rfl fun i => ?_
  rw [inst_updInst]
  split_ifs with hi
  · subst hi
    rw [hf]
  · rfl

/-- A machine runs in a slot. -/
theorem Registry.hookTable_put (s : Registry) (k : ℕ) {m : Machine} (h : Kept (s.machine k) m) :
    (s.put k m).hookTable rx = s.hookTable rx := by
  refine hookTable_ext rfl fun i => ?_
  rw [inst, slots_put]
  split_ifs with hi
  · subst hi
    have hsame : m.inst.eventCallback = (s.inst i).eventCallback :=
      congrArg Client.eventCallback h.client
    rw [hsame]
  · rfl

/-- `setEventCallback`, as the shim calls it. -/
theorem setEventCallback_hookTable (s : Registry) (index : ℕ) (hook : Bool) (refcon : UInt32) :
    (setEventCallback s index (if hook then some rx else none) refcon).1.hookTable rx =
      (s.hookTable rx).setHook hook index := by
  have hstored : decide ((if hook then some rx else none) = some rx) = hook := by
    cases hook with
    | false => exact decide_eq_false (Option.some_ne_none rx).symm
    | true => exact decide_eq_true rfl
  generalize (if hook then some rx else none) = callback at hstored
  unfold setEventCallback
  split_ifs with hlt
  · exact (congrArg (HookTable.mk _ _ _) (if_neg (Nat.not_lt.2 hlt))).symm
  · refine Registry.hookTable_ext rfl fun i => ?_
    show decide (((s.updInst index _).inst i).eventCallback = some rx) =
      (if index < s.count then Function.update (s.hookTable rx).hooks index hook else _) i
    rw [if_pos (Nat.lt_of_not_le hlt), Registry.inst_updInst, Function.update_apply]
    split_ifs with hi
    · exact hstored
    · rfl

theorem initializeInterface_move (d : InterfaceDescriptor) (ref : ℕ) :
    (s.hookTable rx).Move ((initializeInterface usl s d ref).1.hookTable rx) := by
  unfold initializeInterface claimInstance
  split_ifs with hclass hends hfull
  · exact .same
  · exact .same
  · exact .same
  · have hlt : s.count < omsMaxInterfaces := Nat.lt_of_not_le hfull
    have hconnect : (Registry.connect { s with count := s.count + 1 } s.count ref).hookTable rx =
        (s.hookTable rx).claim :=
      Registry.hookTable_updInst { s with count := s.count + 1 } s.count rfl
    have hput : ∀ t : Registry, (t.put s.count
        (startTransaction usl s.count (t.machine s.count))).hookTable rx = t.hookTable rx := fun t =>
      t.hookTable_put s.count (initiateTransaction_kept _ _)
    exact ((hput _).trans hconnect) ▸ .claim hlt

/-- Compaction. -/
theorem disposeInstance_hookTable (s : Registry) (i : ℕ) :
    (disposeInstance s i).hookTable rx = (s.hookTable rx).dispose i := by
  have hslot : ∀ j, ((disposeSlot s i).inst j).eventCallback = (s.inst j).eventCallback := fun j =>
    congrArg Client.eventCallback (disposeSlot_client s i j)
  refine Registry.hookTable_ext (disposeInstance_const s i).1 fun j => ?_
  by_cases hi : i < s.count - 1
  · have hcount : i < (s.hookTable rx).count - 1 := hi
    rw [disposeInstance_move hi, moveInstance_inst, if_pos hcount, Function.update_apply]
    split_ifs
    · rw [hslot]
      rfl
    · rw [hslot]
      rfl
  · have hcount : ¬i < (s.hookTable rx).count - 1 := hi
    rw [disposeInstance_last hi, if_neg hcount, hslot]
    rfl

theorem finalizeProc_move (ref : ℕ) :
    (s.hookTable rx).Move ((finalizeProc s ref).hookTable rx) := by
  unfold finalizeProc
  split
  · next i hi =>
    rw [disposeInstance_hookTable]
    exact .dispose (finalizeIndex_spec hi).1
  · exact .same

/-- A removal notification clears one slot, or leaves the hooks alone. -/
theorem notifyStep_move {accepted : Bool} (hs : notifyStep s accepted = some s') :
    (s.hookTable rx).Move (s'.hookTable rx) := by
  have hstore : ∀ (k : ℕ) {f : Instance → Instance} (p : NotifyPhase),
      (f (s.inst k)).eventCallback = (s.inst k).eventCallback →
        (s.hookTable rx).Move (((s.updInst k f).goto p).hookTable rx) := by
    intro k f p hf
    exact (s.hookTable_updInst k hf) ▸ .same
  rcases hn : s.notify with
    _ | ⟨i, busy⟩ | ⟨i, busy⟩ | ⟨i, busy⟩ | ⟨i, busy⟩ | i | i | ⟨i, w⟩ | busy
  all_goals simp only [notifyStep, hn, reduceCtorEq] at hs
  case mark =>
    split_ifs at hs <;> obtain rfl := Option.some.inj hs
    · exact hstore i _ rfl
    · exact .same
  case unhook =>
    obtain rfl := Option.some.inj hs
    have hcleared : (((s.updInst i .unhook).log (.clearHook (s.inst i).conn)).goto
        (.unref i busy)).hookTable rx = (s.hookTable rx).unhook i := by
      refine Registry.hookTable_ext rfl fun j => ?_
      show decide (((s.updInst i .unhook).inst j).eventCallback = some rx) = _
      rw [Registry.inst_updInst, Function.update_apply]
      split_ifs
      · exact decide_eq_false (Option.some_ne_none rx).symm
      · rfl
    exact hcleared ▸ .unhook i
  case unref =>
    obtain rfl := Option.some.inj hs
    exact hstore i _ rfl
  case test =>
    split_ifs at hs <;> obtain rfl := Option.some.inj hs <;> exact .same
  case abort =>
    split_ifs at hs <;> obtain rfl := Option.some.inj hs
    · have hdropped : (s.dropReads i).hookTable rx = s.hookTable rx := by
        refine Registry.hookTable_ext rfl fun j => ?_
        rw [Registry.inst_dropReads]
      exact hdropped ▸ .same
    · exact .same
  case refused =>
    obtain rfl := Option.some.inj hs
    exact .same
  case clear =>
    obtain rfl := Option.some.inj hs
    exact hstore i _ rfl

/-- **An event of the registry** other than the call of a client moves its hook table. -/
theorem registryStep_move {e : RegistryEvent} (hs : registryStep usl s e = some s')
    (he : ∀ index callback refcon, e ≠ .setEventCallback index callback refcon) :
    (s.hookTable rx).Move (s'.hookTable rx) := by
  have htask : ∀ {f : Registry → Registry},
      (∀ s : Registry, (s.hookTable rx).Move ((f s).hookTable rx)) → s.task f = some s' →
        (s.hookTable rx).Move (s'.hookTable rx) := by
    intro f hf ht
    unfold Registry.task at ht
    split_ifs at ht
    exact Option.some.inj ht ▸ hf (s.goto .idle)
  cases e with
  | init d ref => exact htask (fun s => initializeInterface_move d ref) hs
  | setEventCallback index callback refcon => exact absurd rfl (he index callback refcon)
  | completion k id r =>
    simp only [registryStep] at hs
    split_ifs at hs
    have hkept : Kept (s.machine k) (completeCall usl k id r (s.machine k)) :=
      (Kept.finish _ id r).trans (completionProc_kept (initiateTransaction_kept _) _ _)
    exact Option.some.inj hs ▸ (s.hookTable_put k hkept) ▸ .same
  | notify => exact htask (f := (·.goto (.mark 0 false))) (fun _ => .same) hs
  | notifyStep accepted => exact notifyStep_move hs
  | finalize ref => exact htask (fun s => finalizeProc_move ref) hs

end

end Usbmidi9
