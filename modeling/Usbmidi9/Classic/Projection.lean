/-
  USBMIDI9 — the connections of the registry.

  A claimed slot of the registry is a `Connection`: each event of the registry is
  an event of the connection in slot `k` (`registryStep_connection`), apart from a
  finalize that disposes of the slot or relocates it.  So a run of the registry
  from the initialisation of an interface on is a run of its connection
  (`registry_connection`).
-/
import Usbmidi9.Classic.Connection

namespace Usbmidi9

/-! ## Views of the registry -/

/-- Where a notification is, as slot `k` sees it. -/
def NotifyPhase.seenBy (k : ℕ) : NotifyPhase → RemovalPhase
  | .unhook i _ => if i = k then .unhook else .away
  | .unref i _ => if i = k then .unref else .away
  | .test i _ => if i = k then .test else .away
  | .abort i => if i = k then .abort else .away
  | .refused i => if i = k then .refused else .away
  | .clear i w => if i = k then .clear w else .away
  | .idle | .mark .. | .returned _ => .away

/-- A claimed slot of the registry with a log. -/
def Registry.connection (s : Registry) (k : ℕ) (L : List UslEntry) : Connection :=
  ⟨s.inst k, s.calls k, s.nextId, s.notify.seenBy k, L⟩

/-- A finalize neither disposes of slot `k` nor relocates it. -/
def RegistryEvent.Keeps (k : ℕ) (s : Registry) : RegistryEvent → Prop
  | .finalize ref => ∀ i ∈ finalizeIndex s ref, i ≠ k ∧ s.count - 1 ≠ k
  | _ => True

/-- What an event writes to the log of the connection in slot `k`. -/
def RegistryEvent.logIn (usl : ℕ → UslAnswer) (k : ℕ) (s : Registry) :
    RegistryEvent → List UslEntry
  | .completion j id r => if j = k then completeLog usl k id r (s.machine k) else []
  | _ => []

theorem NotifyPhase.seenBy_atTask {p : NotifyPhase} (h : p.atTask = true) {k : ℕ} :
    p.seenBy k = .away := by
  cases p with
  | idle | returned => rfl
  | _ => cases h

/-! ## Events -/

section
variable {usl : ℕ → UslAnswer} {k : ℕ} {s s' : Registry}

/-- Events elsewhere. -/
theorem connection_others (L : List UslEntry) (hslot : s'.slots k = s.slots k)
    (hid : s.nextId ≤ s'.nextId) (hphase : s'.notify.seenBy k = s.notify.seenBy k) :
    connectionStep usl k (s.connection k L) (.others (s'.nextId - s.nextId)) =
      some (s'.connection k L) := by
  simp only [connectionStep, Registry.connection, Registry.inst, Registry.calls, hslot, hphase]
  rw [Nat.add_sub_cancel' hid]

/-- A removal notification stores into a slot and goes on. -/
theorem store_connection {i : ℕ} {f : Instance → Instance} {p : NotifyPhase} {e : ConnectionEvent}
    (L : List UslEntry) (hslots : s'.slots = (s.updInst i f).slots) (hid : s'.nextId = s.nextId)
    (hphase : s'.notify = p) (hother : i ≠ k → p.seenBy k = s.notify.seenBy k)
    (hhere : i = k → connectionStep usl k (s.connection k L) e =
      some ((s.connection k L).upd f (p.seenBy k))) :
    ∃ e, connectionStep usl k (s.connection k L) e = some (s'.connection k L) := by
  by_cases hik : i = k
  · refine ⟨e, (hhere hik).trans (congrArg some ?_)⟩
    subst hik
    simp only [Registry.connection, Connection.upd, Registry.inst, Registry.calls, hslots, hid,
      hphase, Registry.slots_updInst, if_true]
  · refine ⟨_, connection_others L ?_ hid.ge ?_⟩
    · rw [hslots, Registry.slots_updInst, if_neg (Ne.symm hik)]
    · rw [hphase, hother hik]

/-- One that stores nothing. -/
theorem goto_connection {i : ℕ} {p : NotifyPhase} {e : ConnectionEvent} (L : List UslEntry)
    (hother : i ≠ k → p.seenBy k = s.notify.seenBy k)
    (hhere : i = k → connectionStep usl k (s.connection k L) e =
      some ((s.connection k L).upd id (p.seenBy k))) :
    ∃ e, connectionStep usl k (s.connection k L) e = some ((s.goto p).connection k L) :=
  store_connection (i := i) (f := id) L (Function.update_eq_self i s.slots).symm rfl rfl hother hhere

/-- A step of a removal notification. -/
theorem notifyStep_connection {accepted : Bool} (L : List UslEntry)
    (hs : notifyStep s accepted = some s') :
    ∃ e, connectionStep usl k (s.connection k L) e = some (s'.connection k L) := by
  unfold notifyStep at hs
  rcases hp : s.notify with _ | ⟨i, b⟩ | ⟨i, b⟩ | ⟨i, b⟩ | ⟨i, b⟩ | i | i | ⟨i, w⟩ | b <;>
    simp only [hp] at hs
  · cases hs
  · split_ifs at hs
    · obtain rfl := Option.some.inj hs
      refine store_connection (p := .unhook i b) (e := .notify) L rfl rfl rfl ?_ ?_
      · exact fun hik => by simp [NotifyPhase.seenBy, hp, hik]
      · rintro rfl
        simp [connectionStep, Registry.connection, hp, NotifyPhase.seenBy]
    · obtain rfl := Option.some.inj hs
      exact ⟨_, connection_others L rfl le_rfl (by rw [hp]; rfl)⟩
  · obtain rfl := Option.some.inj hs
    refine store_connection (p := .unref i b) (e := .notifyStep accepted) L rfl rfl rfl ?_ ?_
    · exact fun hik => by simp [NotifyPhase.seenBy, hp, hik]
    · rintro rfl
      simp [connectionStep, removalStep, Registry.connection, hp, NotifyPhase.seenBy]
  · obtain rfl := Option.some.inj hs
    refine store_connection (p := .test i b) (e := .notifyStep accepted) L rfl rfl rfl ?_ ?_
    · exact fun hik => by simp [NotifyPhase.seenBy, hp, hik]
    · rintro rfl
      simp [connectionStep, removalStep, Registry.connection, hp, NotifyPhase.seenBy]
  · split_ifs at hs with hpending
    · obtain rfl := Option.some.inj hs
      refine goto_connection (i := i) (e := .notifyStep accepted) L ?_ ?_
      · exact fun hik => by simp [NotifyPhase.seenBy, hp, hik]
      · rintro rfl
        simp [connectionStep, removalStep, Registry.connection, hp, NotifyPhase.seenBy, hpending]
    · obtain rfl := Option.some.inj hs
      refine goto_connection (i := i) (e := .notifyStep accepted) L ?_ ?_
      · exact fun hik => by simp [NotifyPhase.seenBy, hp, hik]
      · rintro rfl
        simp [connectionStep, removalStep, Registry.connection, hp, NotifyPhase.seenBy,
          not_not.1 hpending]
  · split_ifs at hs with hrefused
    · obtain rfl := Option.some.inj hs
      by_cases hik : i = k
      · subst hik
        refine ⟨.notifyStep accepted, ?_⟩
        simp [connectionStep, removalStep, Registry.connection, Registry.dropReads,
          Registry.goto, Registry.inst, Registry.calls, hp, NotifyPhase.seenBy, hrefused]
      · refine ⟨_, connection_others L ?_ le_rfl ?_⟩
        · exact Function.update_of_ne (Ne.symm hik) ..
        · rw [hp]
          exact (if_neg hik).trans (if_neg hik).symm
    · obtain rfl := Option.some.inj hs
      refine goto_connection (i := i) (e := .notifyStep accepted) L ?_ ?_
      · exact fun hik => by simp [NotifyPhase.seenBy, hp, hik]
      · rintro rfl
        simp [connectionStep, removalStep, Registry.connection, hp, NotifyPhase.seenBy, hrefused]
  · obtain rfl := Option.some.inj hs
    refine goto_connection (i := i) (e := .notifyStep accepted) L ?_ ?_
    · exact fun hik => by simp [NotifyPhase.seenBy, hp, hik]
    · rintro rfl
      simp [connectionStep, removalStep, Registry.connection, hp, NotifyPhase.seenBy]
  · obtain rfl := Option.some.inj hs
    refine store_connection (p := .mark (i + 1) true) (e := .notifyStep accepted) L rfl rfl rfl ?_ ?_
    · exact fun hik => by simp [NotifyPhase.seenBy, hp, hik]
    · rintro rfl
      simp [connectionStep, removalStep, Registry.connection, hp, NotifyPhase.seenBy]
  · cases hs

/-- The machine of the slot runs. -/
theorem put_connection_self (t : Registry) (k : ℕ) (m : Machine) (L : List UslEntry) :
    (t.put k m).connection k L = ⟨m.inst, m.calls, m.nextId, t.notify.seenBy k, L⟩ := by
  rw [Registry.connection, Registry.inst_put_self, Registry.calls_put_self]
  rfl

/-- A machine runs in another slot. -/
theorem put_connection {j : ℕ} {t : Registry} {m : Machine} (L : List UslEntry) (hj : k ≠ j)
    (hslot : t.slots k = s.slots k) (hid : s.nextId ≤ m.nextId)
    (hphase : t.notify.seenBy k = s.notify.seenBy k) :
    ∃ e, connectionStep usl k (s.connection k L) e = some ((t.put j m).connection k L) := by
  refine ⟨_, connection_others L ?_ hid hphase⟩
  rw [Registry.slots_put, if_neg hj, hslot]

/-- An interface is initialised in another slot. -/
theorem initializeInterface_connection (hk : k < s.count) (d : InterfaceDescriptor) (ref : ℕ)
    (L : List UslEntry) : k < (initializeInterface usl s d ref).1.count ∧
      ∃ e, connectionStep usl k (s.connection k L) e =
        some ((initializeInterface usl s d ref).1.connection k L) := by
  have hsame : connectionStep usl k (s.connection k L) (.others (s.nextId - s.nextId)) =
      some (s.connection k L) := connection_others L rfl le_rfl rfl
  unfold initializeInterface claimInstance
  split_ifs
  · exact ⟨hk, _, hsame⟩
  · exact ⟨hk, _, hsame⟩
  · exact ⟨hk, _, hsame⟩
  · refine ⟨hk.trans (Nat.lt_succ_self _), ?_⟩
    have hkept : Kept _ (startTransaction usl s.count
        ((Registry.connect { s with count := s.count + 1 } s.count ref).machine s.count)) :=
      initiateTransaction_kept _ _
    refine put_connection L hk.ne ?_ hkept.nextId rfl
    exact (Registry.slots_updInst _ s.count _ k).trans (if_neg hk.ne)

/-- A client stores a hook. -/
theorem setEventCallback_connection (hk : k < s.count) (hphase : s.notify.seenBy k = .away)
    (index : ℕ) (callback : Option ℕ) (refcon : UInt32) (L : List UslEntry) :
    k < (setEventCallback s index callback refcon).1.count ∧
      ∃ e, connectionStep usl k (s.connection k L) e =
        some ((setEventCallback s index callback refcon).1.connection k L) := by
  unfold setEventCallback
  split_ifs
  · exact ⟨hk, _, connection_others L rfl le_rfl rfl⟩
  · refine ⟨hk, store_connection (p := s.notify) (e := .setEventCallback callback refcon) L rfl rfl
      rfl (fun _ => rfl) ?_⟩
    rintro rfl
    simp [connectionStep, Registry.connection, hphase]

/-- A finalize of another slot. -/
theorem finalizeProc_slots (hk : k < s.count) {ref : ℕ}
    (hkeep : ∀ i ∈ finalizeIndex s ref, i ≠ k ∧ s.count - 1 ≠ k) :
    k < (finalizeProc s ref).count ∧ (finalizeProc s ref).slots k = s.slots k ∧
      (finalizeProc s ref).nextId = s.nextId ∧ (finalizeProc s ref).notify = s.notify := by
  unfold finalizeProc
  cases hf : finalizeIndex s ref with
  | none => exact ⟨hk, rfl, rfl, rfl⟩
  | some i =>
    obtain ⟨hi, hlast⟩ := hkeep i hf
    have hcount : k < s.count - 1 := by omega
    have hdispose : (disposeSlot s i).slots k = s.slots k := disposeSlot_slots (Ne.symm hi)
    obtain ⟨-, hid, -, -, hnotify⟩ := disposeInstance_const s i
    refine ⟨(disposeInstance_const s i).1.symm ▸ hcount, ?_, hid, hnotify⟩
    show (disposeInstance s i).slots k = s.slots k
    by_cases hmove : i < s.count - 1
    · rw [disposeInstance_move hmove]
      show ((disposeSlot s i).updInst i fun _ => (disposeSlot s i).inst (s.count - 1)).slots k = _
      rw [Registry.slots_updInst, if_neg (Ne.symm hi), hdispose]
    · rw [disposeInstance_last hmove]
      exact hdispose

theorem notifyStep_const {accepted : Bool} (hs : notifyStep s accepted = some s') :
    s'.count = s.count ∧ s'.nextConn = s.nextConn := by
  unfold notifyStep at hs
  split at hs
  · cases hs
  · cases hs
  · split_ifs at hs <;> exact Option.some.inj hs ▸ ⟨rfl, rfl⟩
  · exact Option.some.inj hs ▸ ⟨rfl, rfl⟩
  · exact Option.some.inj hs ▸ ⟨rfl, rfl⟩
  · split_ifs at hs <;> exact Option.some.inj hs ▸ ⟨rfl, rfl⟩
  · split_ifs at hs <;> exact Option.some.inj hs ▸ ⟨rfl, rfl⟩
  · exact Option.some.inj hs ▸ ⟨rfl, rfl⟩
  · exact Option.some.inj hs ▸ ⟨rfl, rfl⟩

/-- A task-level call finds no notification in the slot. -/
theorem task_connection {f : Registry → Registry} (hs : s.task f = some s') (L : List UslEntry) :
    s' = f (s.goto .idle) ∧ (s.goto .idle).connection k L = s.connection k L := by
  unfold Registry.task at hs
  split_ifs at hs with hatTask
  refine ⟨(Option.some.inj hs).symm, ?_⟩
  simp only [Registry.connection, NotifyPhase.seenBy_atTask hatTask]
  rfl

/-- **Each event of the registry** is one of the connection in slot `k`. -/
theorem registryStep_connection (hk : k < s.count) {e : RegistryEvent} (hkeep : e.Keeps k s)
    (hs : registryStep usl s e = some s') (L : List UslEntry) :
    k < s'.count ∧
      ∃ e', connectionStep usl k (s.connection k L) e' =
        some (s'.connection k (L ++ e.logIn usl k s)) := by
  cases e with
  | init d ref =>
    simp only [registryStep] at hs
    obtain ⟨rfl, hsame⟩ := task_connection (k := k) hs L
    simp only [RegistryEvent.logIn, List.append_nil]
    rw [← hsame]
    exact initializeInterface_connection (s := s.goto .idle) hk d ref L
  | setEventCallback index callback refcon =>
    simp only [registryStep] at hs
    obtain ⟨rfl, hsame⟩ := task_connection (k := k) hs L
    simp only [RegistryEvent.logIn, List.append_nil]
    rw [← hsame]
    exact setEventCallback_connection (s := s.goto .idle) hk rfl index callback refcon L
  | completion j id r =>
    simp only [registryStep] at hs
    split_ifs at hs with hid
    obtain rfl := Option.some.inj hs
    refine ⟨hk, ?_⟩
    by_cases hj : k = j
    · subst hj
      refine ⟨.completion id r, (if_pos hid).trans ?_⟩
      rw [put_connection_self, show RegistryEvent.logIn usl k s (.completion k id r) =
        completeLog usl k id r (s.machine k) from if_pos rfl]
      rfl
    · have hkept : Kept ((s.machine j).finish id r) (completeCall usl j id r (s.machine j)) :=
        completionProc_kept (initiateTransaction_kept _) _ _
      have hlog : L ++ RegistryEvent.logIn usl k s (.completion j id r) = L :=
        (congrArg (L ++ ·) (if_neg (Ne.symm hj))).trans (List.append_nil L)
      rw [hlog]
      exact put_connection L hj rfl hkept.nextId rfl
  | notify =>
    simp only [registryStep] at hs
    obtain ⟨rfl, hsame⟩ := task_connection (k := k) hs L
    simp only [RegistryEvent.logIn, List.append_nil]
    rw [← hsame]
    exact ⟨hk, _, connection_others L rfl le_rfl rfl⟩
  | notifyStep accepted =>
    simp only [RegistryEvent.logIn, List.append_nil]
    exact ⟨(notifyStep_const hs).1.symm ▸ hk, notifyStep_connection L hs⟩
  | finalize ref =>
    simp only [registryStep] at hs
    obtain ⟨rfl, hsame⟩ := task_connection (k := k) hs L
    simp only [RegistryEvent.logIn, List.append_nil]
    rw [← hsame]
    obtain ⟨hcount, hslot, hid, hnotify⟩ := finalizeProc_slots (s := s.goto .idle) hk hkeep
    exact ⟨hcount, _, connection_others L hslot hid.ge (by rw [hnotify])⟩

/-- The connection that an initialisation opens in the first unclaimed slot. -/
theorem initializeInterface_open {d : InterfaceDescriptor} {ref : ℕ}
    (hcalls : s.calls s.count = []) (hphase : s.notify.seenBy s.count = .away)
    (hclaimed : s.count < (initializeInterface usl s d ref).1.count) :
    ∃ L, (initializeInterface usl s d ref).1.connection s.count L =
      openConnection usl s.count ref s.nextConn s.nextId (s.inst s.count) := by
  unfold initializeInterface claimInstance at hclaimed ⊢
  split_ifs at hclaimed ⊢
  · exact absurd hclaimed (lt_irrefl _)
  · exact absurd hclaimed (lt_irrefl _)
  · exact absurd hclaimed (lt_irrefl _)
  · -- the first unclaimed slot
    have hmachine : (Registry.connect { s with count := s.count + 1 } s.count ref).machine s.count =
        ⟨initInstance ref s.nextConn (s.inst s.count), [], s.nextId, []⟩ := by
      have hinst : (Registry.connect { s with count := s.count + 1 } s.count ref).inst s.count =
          initInstance ref s.nextConn (s.inst s.count) :=
        (Registry.inst_updInst _ s.count _ _).trans (if_pos rfl)
      have hidle : (Registry.connect { s with count := s.count + 1 } s.count ref).calls s.count =
          [] := (Registry.calls_updInst _ s.count _ _).trans hcalls
      rw [Registry.machine, hinst, hidle]
      rfl
    refine ⟨transactionLog usl s.count transFuel
      ⟨initInstance ref s.nextConn (s.inst s.count), [], s.nextId, []⟩, ?_⟩
    have hseen : NotifyPhase.seenBy s.count
        (Registry.connect { s with count := s.count + 1 } s.count ref).notify = .away := hphase
    simp only
    rw [hmachine, put_connection_self, hseen]
    rfl

end

/-- **A connection of the registry** whose slot had no call outstanding is a connection on
    its own, as long as no finalize disposes of its slot or relocates it. -/
theorem registry_connection {usl : ℕ → UslAnswer} {s₀ s₁ s : Registry} {d : InterfaceDescriptor}
    {ref : ℕ} (hcalls : s₀.calls s₀.count = [])
    (hinit : registryStep usl s₀ (.init d ref) = some s₁) (hclaimed : s₀.count < s₁.count)
    (h : Reach (registryStep usl) (fun s e => e.Keeps s₀.count s) s₁ s) :
    ∃ L, ConnRun usl s₀.count
      (openConnection usl s₀.count ref s₀.nextConn s₀.nextId (s₀.inst s₀.count))
      (s.connection s₀.count L) := by
  refine (h.inv (I := fun s => s₀.count < s.count ∧ ∃ L, ConnRun usl s₀.count
    (openConnection usl s₀.count ref s₀.nextConn s₀.nextId (s₀.inst s₀.count))
    (s.connection s₀.count L)) ⟨hclaimed, ?_⟩ ?_).2
  · simp only [registryStep] at hinit
    obtain ⟨rfl, -⟩ := task_connection (k := s₀.count) hinit []
    obtain ⟨L, hL⟩ := initializeInterface_open (s := s₀.goto .idle) hcalls rfl hclaimed
    exact ⟨L, hL ▸ .refl⟩
  · rintro s e s' ⟨hk, L, hrun⟩ hkeep hs
    obtain ⟨hk', e', hstep⟩ := registryStep_connection hk hkeep hs L
    exact ⟨hk', _, hrun.step trivial hstep⟩

end Usbmidi9
