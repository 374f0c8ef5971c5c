/-
  USBMIDI9 — a removal comes to an end.

  A removal notification answers `kUSBDeviceBusy` while calls are outstanding, and
  the USB Manager tries again.  Two measures say that this ends: the steps that
  are left of a notification (`notifyLeft`), whatever completes in between, and
  the calls that are outstanding (`outstanding`), which no event but an
  initialisation makes more once every instance is marked.

  `removal_finishes` is the result: the notification goes on until it has returned, no
  more completions follow than calls are outstanding then, and when they have come
  the next notification lets the interfaces go.
-/
import Usbmidi9.Classic.Reentry
import Usbmidi9.Classic.Removal

namespace Usbmidi9

/-! ## Measures -/

/-- The calls that are outstanding on the claimed slots. -/
def Registry.outstanding (s : Registry) : ℕ := ∑ k ∈ Finset.range s.count, (s.calls k).length

/-- How many steps a removal notification has left at most. -/
def Registry.notifyLeft (s : Registry) : ℕ :=
  match s.notify with
  | .idle | .returned _ => 0
  | .mark i _ => 7 * (s.count - i) + 1
  | .unhook i _ => 7 * (s.count - i)
  | .unref i _ => 7 * (s.count - i) - 1
  | .test i _ => 7 * (s.count - i) - 2
  | .abort i => 7 * (s.count - i) - 3
  | .refused i => 7 * (s.count - i) - 4
  | .clear i _ => 7 * (s.count - i) - 5

/-- Every claimed slot is marked. -/
def Marked (s : Registry) : Prop := ∀ k < s.count, (s.inst k).removing = true

/-- What a removal notification has marked so far. -/
def NotifyPhase.Marks (s : Registry) : NotifyPhase → Prop
  | .idle => True
  | .mark i _ => ∀ k < i, k < s.count → (s.inst k).removing = true
  | .unhook i _ | .unref i _ | .test i _ | .abort i | .refused i | .clear i _ =>
    ∀ k < i + 1, k < s.count → (s.inst k).removing = true
  | .returned _ => Marked s

/-- The events of a notification: its steps, and completions between them. -/
def RegistryEvent.InNotification : RegistryEvent → Prop
  | .completion .. | .notifyStep _ => True
  | _ => False

/-- Events other than the initialisation of an interface. -/
def RegistryEvent.NoInit : RegistryEvent → Prop
  | .init .. => False
  | _ => True

/-- The conditions under which the registry's invariant is kept. -/
def RegistryEvent.Sound (s : Registry) (e : RegistryEvent) : Prop :=
  e.Disciplined s ∧ e.AbortOk s ∧ e.RelocateOk s

instance (s : Registry) (e : RegistryEvent) : Decidable (e.Sound s) :=
  inferInstanceAs (Decidable (_ ∧ _ ∧ _))

instance : (e : RegistryEvent) → Decidable e.InNotification
  | .completion .. | .notifyStep _ => isTrue trivial
  | .init .. | .setEventCallback .. | .finalize _ | .notify => isFalse id

instance : (e : RegistryEvent) → Decidable e.NoInit
  | .init .. => isFalse id
  | .setEventCallback .. | .completion .. | .notifyStep _ | .finalize _ | .notify => isTrue trivial

/-- Whether an event is a step of a notification. -/
def RegistryEvent.steps : RegistryEvent → ℕ
  | .notifyStep _ => 1
  | _ => 0

/-- Whether an event is a completion. -/
def RegistryEvent.completions : RegistryEvent → ℕ
  | .completion .. => 1
  | _ => 0

/-! ## Completions -/

section
variable {usl : ℕ → UslAnswer} {s s' : Registry}

theorem mem_calls_lt (h : RegInv s) {k id : ℕ} (hid : id ∈ (s.calls k).map Call.id) :
    k < s.count := by
  by_contra hk
  rw [h.slots.unclaimed k (Nat.le_of_not_lt hk)] at hid
  exact absurd hid List.not_mem_nil

/-- A completion leaves the marks of all instances alone. -/
theorem completion_removing (k id : ℕ) (r : UslResult) (j : ℕ) :
    ((s.put k (completeCall usl k id r (s.machine k))).inst j).removing = (s.inst j).removing := by
  have hkept : Kept (s.machine k) (completeCall usl k id r (s.machine k)) :=
    (Kept.finish _ id r).trans (completionProc_kept (initiateTransaction_kept _) _ _)
  by_cases hj : j = k
  · subst hj
    rw [Registry.inst_put_self]
    exact congrArg Client.removing hkept.client
  · rw [Registry.inst, Registry.slots_put, if_neg hj]

/-- **A marked instance** issues nothing when its call completes. -/
theorem completion_outstanding (h : RegInv s) {k id : ℕ} (hid : id ∈ (s.calls k).map Call.id)
    (hr : (s.inst k).removing = true) (r : UslResult) :
    (s.put k (completeCall usl k id r (s.machine k))).outstanding + 1 = s.outstanding := by
  have hk := mem_calls_lt h hid
  have hdrop : s.notify.dropped ≠ some k := by
    intro hd
    have hnil : s.calls k = [] := (h.slots.dropped k hd).2.calls
    rw [hnil] at hid
    exact absurd hid List.not_mem_nil
  have hlen : (s.calls k).length ≤ 1 := (h.slots.settled k hk hdrop).pending_iff.2
  have hone : (s.calls k).length = 1 := by
    have hne : s.calls k ≠ [] := fun hnil => by rw [hnil] at hid; exact absurd hid List.not_mem_nil
    have hpos := List.length_pos_of_ne_nil hne
    omega
  have hnone : (completeCall usl k id r (s.machine k)).calls = [] := by
    rw [completeCall, completionProc_removing hr]
    exact stageDone_calls hlen hid
  have hcalls : ∀ j, (s.put k (completeCall usl k id r (s.machine k))).calls j =
      if j = k then [] else s.calls j := by
    intro j
    by_cases hj : j = k
    · subst hj
      rw [Registry.calls_put_self, hnone, if_pos rfl]
    · rw [Registry.calls, Registry.slots_put, if_neg hj, if_neg hj]
  have hmem : k ∈ Finset.range s.count := Finset.mem_range.2 hk
  have hcount : (s.put k (completeCall usl k id r (s.machine k))).count = s.count := rfl
  rw [Registry.outstanding, Registry.outstanding, hcount,
    ← Finset.sum_erase_add _ _ hmem, ← Finset.sum_erase_add _ _ hmem, hcalls, if_pos rfl, hone]
  simp only [List.length_nil, add_zero, add_left_inj]
  refine Finset.sum_congr rfl ?_
  intro j hj
  rw [hcalls, if_neg (Finset.ne_of_mem_erase hj)]

/-! ## Notifications -/

theorem removing_updInst {f : Instance → Instance}
    (hf : ∀ inst, inst.removing = true → (f inst).removing = true) {i k : ℕ}
    (h : (s.inst k).removing = true) : ((s.updInst i f).inst k).removing = true := by
  rw [Registry.inst_updInst]
  split_ifs with hk
  · exact hf _ (hk ▸ h)
  · exact h

theorem length_dropReads (s : Registry) (i k : ℕ) :
    ((s.dropReads i).calls k).length ≤ (s.calls k).length := by
  by_cases hk : k = i
  · subst hk
    simp only [Registry.calls, Registry.dropReads, Function.update_self]
    exact List.length_filter_le ..
  · simp only [Registry.calls, Registry.dropReads, Function.update_of_ne hk, le_refl]

/-- What a step of a notification leaves alone. -/
theorem notifyStep_frame {accepted : Bool} (hs : notifyStep s accepted = some s') :
    s'.count = s.count ∧ (∀ k, (s.inst k).removing = true → (s'.inst k).removing = true) ∧
      ∀ k, (s'.calls k).length ≤ (s.calls k).length := by
  have hstore : ∀ {f : Instance → Instance} (i : ℕ) (p : NotifyPhase),
      (∀ inst, inst.removing = true → (f inst).removing = true) →
      ((s.updInst i f).goto p).count = s.count ∧
        (∀ k, (s.inst k).removing = true → (((s.updInst i f).goto p).inst k).removing = true) ∧
        ∀ k, (((s.updInst i f).goto p).calls k).length ≤ (s.calls k).length := by
    intro f i p hf
    refine ⟨rfl, fun k hk => removing_updInst hf hk, ?_⟩
    intro k
    exact (congrArg List.length (Registry.calls_updInst s i f k)).le
  unfold notifyStep at hs
  cases hn : s.notify with
  | idle | returned busy => rw [hn] at hs; cases hs
  | mark i busy =>
    rw [hn] at hs
    simp only at hs
    split_ifs at hs
    · exact Option.some.inj hs ▸ hstore i _ fun _ _ => rfl
    · exact Option.some.inj hs ▸ ⟨rfl, fun _ => id, fun _ => le_refl _⟩
  | unhook i busy =>
    rw [hn] at hs
    exact Option.some.inj hs ▸ hstore (f := .unhook) i (.unref i busy) fun _ => id
  | unref i busy =>
    rw [hn] at hs
    exact Option.some.inj hs ▸ hstore i _ fun _ => id
  | test i busy =>
    rw [hn] at hs
    simp only at hs
    split_ifs at hs <;> exact Option.some.inj hs ▸ ⟨rfl, fun _ => id, fun _ => le_refl _⟩
  | abort i =>
    rw [hn] at hs
    simp only at hs
    split_ifs at hs
    · refine Option.some.inj hs ▸ ⟨rfl, ?_, fun k => length_dropReads s i k⟩
      intro k hk
      exact (congrArg Instance.removing (Registry.inst_dropReads s i k)).trans hk
    · exact Option.some.inj hs ▸ ⟨rfl, fun _ => id, fun _ => le_refl _⟩
  | refused i =>
    rw [hn] at hs
    exact Option.some.inj hs ▸ ⟨rfl, fun _ => id, fun _ => le_refl _⟩
  | clear i w =>
    rw [hn] at hs
    exact Option.some.inj hs ▸ hstore i _ fun _ => id

/-- **A step of a notification** is one of those that are left, and the instances before
    it are marked. -/
theorem notifyStep_left {accepted : Bool} (h : RegInv s) (hm : s.notify.Marks s)
    (hs : notifyStep s accepted = some s') :
    s'.notify.Marks s' ∧ s'.notifyLeft + 1 ≤ s.notifyLeft := by
  obtain ⟨hcount, hrem, -⟩ := notifyStep_frame hs
  -- the marks are kept, and the phase is one further
  have hgo : ∀ {p : NotifyPhase} {n : ℕ}, s'.notify = p →
      (∀ k < n, k < s.count → (s.inst k).removing = true) →
      ∀ k < n, k < s'.count → (s'.inst k).removing = true := by
    intro p n _ hn k hk hc
    exact hrem k (hn k hk (hcount ▸ hc))
  have hphase := h.phase
  have hdropped := h.slots.dropped
  unfold notifyStep at hs
  unfold Registry.notifyLeft
  cases hn : s.notify with
  | idle | returned busy => rw [hn] at hs; cases hs
  | mark i busy =>
    rw [hn] at hs hm
    simp only at hs
    split_ifs at hs with hi
    · obtain rfl := Option.some.inj hs
      refine ⟨?_, ?_⟩
      · intro k hk hc
        rcases Nat.lt_succ_iff_lt_or_eq.1 hk with hk | rfl
        · exact hrem k (hm k hk hc)
        · show ((s.updInst k .setRemoving).inst k).removing = true
          rw [Registry.inst_updInst, if_pos rfl]
          rfl
      · show 7 * (s.count - i) + 1 ≤ 7 * (s.count - i) + 1
        exact le_refl _
    · obtain rfl := Option.some.inj hs
      refine ⟨?_, ?_⟩
      · intro k hk
        exact hm k (lt_of_lt_of_le hk (Nat.le_of_not_lt hi)) hk
      · show 0 + 1 ≤ 7 * (s.count - i) + 1
        omega
  | unhook i busy =>
    rw [hn] at hs hm hphase
    obtain ⟨hi, -⟩ := hphase
    obtain rfl := Option.some.inj hs
    refine ⟨hgo rfl hm, ?_⟩
    show 7 * (s.count - i) - 1 + 1 ≤ 7 * (s.count - i)
    omega
  | unref i busy =>
    rw [hn] at hs hm hphase
    obtain ⟨hi, -⟩ := hphase
    obtain rfl := Option.some.inj hs
    refine ⟨hgo rfl hm, ?_⟩
    show 7 * (s.count - i) - 2 + 1 ≤ 7 * (s.count - i) - 1
    omega
  | test i busy =>
    rw [hn] at hs hm hphase
    obtain ⟨hi, -⟩ := hphase
    simp only at hs
    split_ifs at hs
    · obtain rfl := Option.some.inj hs
      refine ⟨hgo rfl hm, ?_⟩
      show 7 * (s.count - i) - 3 + 1 ≤ 7 * (s.count - i) - 2
      omega
    · obtain rfl := Option.some.inj hs
      refine ⟨hgo rfl hm, ?_⟩
      show 7 * (s.count - (i + 1)) + 1 + 1 ≤ 7 * (s.count - i) - 2
      omega
  | abort i =>
    rw [hn] at hs hm hphase
    obtain ⟨hi, -⟩ := hphase
    simp only at hs
    split_ifs at hs
    · obtain rfl := Option.some.inj hs
      refine ⟨hgo rfl hm, ?_⟩
      show 7 * (s.count - i) - 4 + 1 ≤ 7 * (s.count - i) - 3
      omega
    · obtain rfl := Option.some.inj hs
      refine ⟨hgo rfl hm, ?_⟩
      show 7 * (s.count - (i + 1)) + 1 + 1 ≤ 7 * (s.count - i) - 3
      omega
  | refused i =>
    rw [hn] at hs hm hdropped
    obtain ⟨hi, -⟩ := hdropped i rfl
    obtain rfl := Option.some.inj hs
    refine ⟨hgo rfl hm, ?_⟩
    show 7 * (s.count - i) - 5 + 1 ≤ 7 * (s.count - i) - 4
    omega
  | clear i w =>
    rw [hn] at hs hm hdropped
    obtain ⟨hi, -⟩ := hdropped i rfl
    obtain rfl := Option.some.inj hs
    refine ⟨hgo rfl hm, ?_⟩
    show 7 * (s.count - (i + 1)) + 1 + 1 ≤ 7 * (s.count - i) - 5
    omega

/-! ## Events -/

/-- **An event during a notification.** -/
theorem inNotification_step {e : RegistryEvent} (h : RegInv s) (hm : s.notify.Marks s)
    (hin : e.InNotification) (hok : e.Sound s) (hs : registryStep usl s e = some s') :
    (RegInv s' ∧ s'.notify.Marks s') ∧ s'.notifyLeft + e.steps ≤ s.notifyLeft := by
  have hinv := registryStep_inv h hok.1 hok.2.1 hok.2.2 hs
  cases e with
  | completion k id r =>
    simp only [registryStep] at hs
    split_ifs at hs
    obtain rfl := Option.some.inj hs
    refine ⟨⟨hinv, ?_⟩, le_refl _⟩
    have hrem : ∀ j, ((s.put k (completeCall usl k id r (s.machine k))).inst j).removing =
        (s.inst j).removing := completion_removing k id r
    show s.notify.Marks _
    cases hn : s.notify <;> rw [hn] at hm <;> first
      | trivial
      | exact fun j hj hc => (hrem j).trans (hm j hj hc)
      | exact fun j hj => (hrem j).trans (hm j hj)
  | notifyStep accepted =>
    obtain ⟨hm', hleft⟩ := notifyStep_left h hm hs
    exact ⟨⟨hinv, hm'⟩, hleft⟩
  | init d ref => exact hin.elim
  | setEventCallback index callback refcon => exact hin.elim
  | notify => exact hin.elim
  | finalize ref => exact hin.elim

theorem task_some {f : Registry → Registry} (hs : s.task f = some s') : s' = f (s.goto .idle) := by
  unfold Registry.task at hs
  split_ifs at hs
  exact (Option.some.inj hs).symm

/-- Disposing leaves the marks and the calls alone. -/
theorem disposeInstance_marked (hm : Marked s) {i : ℕ} (hi : i < s.count) :
    Marked (disposeInstance s i) ∧ (disposeInstance s i).outstanding ≤ s.outstanding := by
  obtain ⟨hcount, -⟩ := disposeInstance_const s i
  refine ⟨?_, ?_⟩
  · intro k hk
    rw [hcount] at hk
    rw [disposeInstance_inst hk]
    split_ifs
    · exact hm _ (by omega)
    · exact hm _ (by omega)
  · unfold Registry.outstanding
    simp only [hcount, disposeInstance_calls]
    exact Finset.sum_le_sum_of_subset (Finset.range_mono (Nat.sub_le _ _))

/-- **An event after the instances were marked.** -/
theorem marked_step {e : RegistryEvent} (h : RegInv s) (hm : Marked s) (hno : e.NoInit)
    (hok : e.Sound s) (hs : registryStep usl s e = some s') :
    (RegInv s' ∧ Marked s') ∧ s'.outstanding + e.completions ≤ s.outstanding := by
  have hinv := registryStep_inv h hok.1 hok.2.1 hok.2.2 hs
  cases e with
  | init d ref => exact hno.elim
  | setEventCallback index callback refcon =>
    simp only [registryStep] at hs
    obtain rfl := task_some hs
    unfold Usbmidi9.setEventCallback at hinv ⊢
    split_ifs at hinv ⊢
    · exact ⟨⟨hinv, hm⟩, le_refl _⟩
    · refine ⟨⟨hinv, ?_⟩, ?_⟩
      · intro k hk
        exact removing_updInst (s := s.goto .idle) (f := .setHook callback refcon) (fun _ => id)
          (hm k hk)
      · show ∑ k ∈ Finset.range s.count, _ ≤ ∑ k ∈ Finset.range s.count, _
        refine Finset.sum_le_sum fun k _ => ?_
        exact (congrArg List.length (Registry.calls_updInst (s.goto .idle) index _ k)).le
  | completion k id r =>
    simp only [registryStep] at hs
    split_ifs at hs with hid
    obtain rfl := Option.some.inj hs
    refine ⟨⟨hinv, fun j hj => (completion_removing k id r j).trans (hm j hj)⟩, ?_⟩
    exact (completion_outstanding h hid (hm k (mem_calls_lt h hid)) r).le
  | notify =>
    simp only [registryStep] at hs
    obtain rfl := task_some hs
    exact ⟨⟨hinv, hm⟩, le_refl _⟩
  | notifyStep accepted =>
    obtain ⟨hcount, hrem, hcalls⟩ := notifyStep_frame hs
    refine ⟨⟨hinv, fun k hk => hrem k (hm k (hcount ▸ hk))⟩, ?_⟩
    rw [Registry.outstanding, hcount]
    show ∑ k ∈ Finset.range s.count, _ ≤ ∑ k ∈ Finset.range s.count, _
    exact Finset.sum_le_sum fun k _ => hcalls k
  | finalize ref =>
    simp only [registryStep] at hs
    obtain rfl := task_some hs
    unfold finalizeProc at hinv ⊢
    rcases hi : finalizeIndex (s.goto .idle) ref with _ | i
    · rw [hi] at hinv
      exact ⟨⟨hinv, hm⟩, le_refl _⟩
    · rw [hi] at hinv
      obtain ⟨hlt, -⟩ := finalizeIndex_spec hi
      obtain ⟨hm', hle⟩ := disposeInstance_marked (s := s.goto .idle) hm hlt
      exact ⟨⟨hinv, hm'⟩, hle⟩

/-! ## Quiet notifications -/

/-- A notification that has found no call pending so far. -/
def NotifyPhase.Unbusy : NotifyPhase → Prop
  | .mark _ busy | .unhook _ busy | .unref _ busy | .test _ busy | .returned busy => busy = false
  | .abort _ | .refused _ | .clear .. => False
  | .idle => True

/-- With no call outstanding, a notification finds none pending. -/
theorem unbusy_step {e : RegistryEvent} (h : RegInv s) (hnone : ∀ k, s.calls k = [])
    (hq : s.notify.Unbusy) (hin : e.InNotification) (hok : e.Sound s)
    (hs : registryStep usl s e = some s') :
    RegInv s' ∧ (∀ k, s'.calls k = []) ∧ s'.notify.Unbusy := by
  have hinv := registryStep_inv h hok.1 hok.2.1 hok.2.2 hs
  cases e with
  | init d ref => exact hin.elim
  | setEventCallback index callback refcon => exact hin.elim
  | notify => exact hin.elim
  | finalize ref => exact hin.elim
  | completion k id r =>
    simp only [registryStep] at hs
    split_ifs at hs with hid
    rw [hnone] at hid
    exact absurd hid List.not_mem_nil
  | notifyStep accepted =>
    obtain ⟨-, -, hcalls⟩ := notifyStep_frame hs
    have hnone' : ∀ k, s'.calls k = [] := by
      intro k
      have hk := hcalls k
      rw [hnone] at hk
      exact List.eq_nil_of_length_eq_zero (Nat.le_zero.1 hk)
    refine ⟨hinv, hnone', ?_⟩
    have hphase := h.phase
    simp only [registryStep, notifyStep] at hs
    cases hn : s.notify with
    | idle => rw [hn] at hs; cases hs
    | returned busy => rw [hn] at hs; cases hs
    | abort i => rw [hn] at hq; exact hq.elim
    | refused i => rw [hn] at hq; exact hq.elim
    | clear i w => rw [hn] at hq; exact hq.elim
    | mark i busy =>
      rw [hn] at hs hq
      simp only at hs
      split_ifs at hs <;> exact Option.some.inj hs ▸ hq
    | unhook i busy =>
      rw [hn] at hs hq
      exact Option.some.inj hs ▸ hq
    | unref i busy =>
      rw [hn] at hs hq
      exact Option.some.inj hs ▸ hq
    | test i busy =>
      rw [hn] at hs hq hphase
      obtain ⟨hi, -⟩ := hphase
      have hdrop : s.notify.dropped ≠ some i := by simp [hn, NotifyPhase.dropped]
      have hiff := (h.slots.settled i hi hdrop).pending_iff.1
      have hbit : ¬(s.inst i).pb.usbRefcon &&& kCompletionPending ≠ 0 := by
        intro hbit
        have hone : (s.calls i).length = 1 := hiff.1 hbit
        rw [hnone] at hone
        exact absurd hone (by decide)
      simp only [if_neg hbit] at hs
      exact Option.some.inj hs ▸ hq

theorem calls_of_outstanding (h : RegInv s) (h0 : s.outstanding = 0) (k : ℕ) : s.calls k = [] := by
  rcases Nat.lt_or_ge k s.count with hk | hk
  · have hzero := (Finset.sum_eq_zero_iff.1 h0) k (Finset.mem_range.2 hk)
    exact List.eq_nil_of_length_eq_zero hzero
  · exact h.slots.unclaimed k hk

/-! ## Progress -/

/-- A notification that has not returned goes on, whatever the library answers. -/
theorem notifyStep_progress (hn : s.notify.atTask = false) (accepted : Bool) :
    ∃ s', notifyStep s accepted = some s' := by
  unfold notifyStep
  cases h : s.notify with
  | idle | returned busy =>
    rw [h] at hn
    cases hn
  | mark i busy =>
    dsimp only
    split_ifs
    · exact ⟨_, rfl⟩
    · exact ⟨_, rfl⟩
  | unhook i busy | unref i busy | refused i | clear i w => exact ⟨_, rfl⟩
  | test i busy =>
    dsimp only
    split_ifs
    · exact ⟨_, rfl⟩
    · exact ⟨_, rfl⟩
  | abort i =>
    dsimp only
    split_ifs
    · exact ⟨_, rfl⟩
    · exact ⟨_, rfl⟩

theorem notifyStep_ne_idle {accepted : Bool} (hs : notifyStep s accepted = some s') :
    s'.notify ≠ .idle := by
  unfold notifyStep at hs
  cases hn : s.notify with
  | idle | returned busy =>
    rw [hn] at hs
    cases hs
  | mark i busy | test i busy | abort i =>
    rw [hn] at hs
    simp only at hs
    split_ifs at hs <;>
      · obtain rfl := Option.some.inj hs
        simp [Registry.goto, notifyReturn]
  | unhook i busy | unref i busy | refused i | clear i w =>
    rw [hn] at hs
    obtain rfl := Option.some.inj hs
    simp [Registry.goto]

/-- A call that is outstanding can complete. -/
theorem completion_progress (h : s.outstanding ≠ 0) :
    ∃ k id, ∀ r, ∃ s', registryStep usl s (.completion k id r) = some s' := by
  obtain ⟨k, -, hk⟩ := Finset.exists_ne_zero_of_sum_ne_zero h
  obtain ⟨c, hc⟩ := List.exists_mem_of_length_pos (Nat.pos_of_ne_zero hk)
  exact ⟨k, c.id, fun r => ⟨_, if_pos (List.mem_map_of_mem hc)⟩⟩

/-- **A notification that has begun**: what it has marked, and how many steps are left. -/
theorem notification_left (h : RegInv s) {es : List RegistryEvent}
    (hok : RunOk (registryStep usl) (fun s e => e.Sound s) s (.notify :: es))
    (hin : ∀ e ∈ es, e.InNotification)
    (hrun : runEvents (registryStep usl) s (.notify :: es) = some s') :
    (RegInv s' ∧ s'.notify.Marks s' ∧ s'.notify ≠ .idle) ∧
      s'.notifyLeft + (es.map RegistryEvent.steps).sum ≤ 7 * s.count + 1 := by
  obtain ⟨t, ht, hrest⟩ := Option.bind_eq_some_iff.1 hrun
  have htask := ht
  simp only [registryStep] at htask
  obtain rfl := task_some htask
  have hbegun := registryStep_inv h hok.1.1 hok.1.2.1 hok.1.2.2 ht
  have hmark : NotifyPhase.mark 0 false ≠ .idle := by simp
  refine ((hok.2 _ ht).and hin).measure
    (I := fun s => RegInv s ∧ s.notify.Marks s ∧ s.notify ≠ .idle) (μ := Registry.notifyLeft)
    (w := RegistryEvent.steps) ?_ ⟨hbegun, fun k hk => absurd hk (Nat.not_lt_zero k), hmark⟩ hrest
  intro s e s' hI hP hs
  obtain ⟨⟨hinv, hmarks⟩, hleft⟩ := inNotification_step hI.1 hI.2.1 hP.1 hP.2 hs
  refine ⟨⟨hinv, hmarks, ?_⟩, hleft⟩
  cases e with
  | completion k id r =>
    simp only [registryStep] at hs
    split_ifs at hs
    exact Option.some.inj hs ▸ hI.2.2
  | notifyStep accepted => exact notifyStep_ne_idle hs
  | init d ref => exact hP.1.elim
  | setEventCallback index callback refcon => exact hP.1.elim
  | notify => exact hP.1.elim
  | finalize ref => exact hP.1.elim

/-- **A notification with no call outstanding** is not busy. -/
theorem notification_unbusy (h : RegInv s) (h0 : s.outstanding = 0) {es : List RegistryEvent}
    (hok : RunOk (registryStep usl) (fun s e => e.Sound s) s (.notify :: es))
    (hin : ∀ e ∈ es, e.InNotification)
    (hrun : runEvents (registryStep usl) s (.notify :: es) = some s') : s'.notify.Unbusy := by
  obtain ⟨t, ht, hrest⟩ := Option.bind_eq_some_iff.1 hrun
  have htask := ht
  simp only [registryStep] at htask
  obtain rfl := task_some htask
  have hbegun := registryStep_inv h hok.1.1 hok.1.2.1 hok.1.2.2 ht
  obtain ⟨⟨-, -, hquiet⟩, -⟩ := ((hok.2 _ ht).and hin).measure
    (I := fun s => RegInv s ∧ (∀ k, s.calls k = []) ∧ s.notify.Unbusy) (μ := fun _ => 0)
    (w := fun _ => 0)
    (fun s e s' hI hP hs => ⟨unbusy_step hI.1 hI.2.1 hI.2.2 hP.1 hP.2 hs, le_refl _⟩)
    ⟨hbegun, (calls_of_outstanding h h0 : ∀ k, s.calls k = []), rfl⟩ hrest
  exact hquiet

end

/-! ## The end of a removal -/

/-- A notification goes on, or it has returned. -/
def Registry.Proceeds (usl : ℕ → UslAnswer) (s : Registry) : Prop :=
  (∀ accepted, ∃ s', registryStep usl s (.notifyStep accepted) = some s') ∨
    ∃ busy, s.notify = .returned busy

theorem proceeds_of_ne_idle {usl : ℕ → UslAnswer} {s : Registry} (h : s.notify ≠ .idle) :
    s.Proceeds usl := by
  by_cases htask : s.notify.atTask = false
  · exact .inl (notifyStep_progress htask)
  · cases hn : s.notify with
    | idle => exact absurd hn h
    | returned busy => exact .inr ⟨busy, hn⟩
    | _ =>
      rw [hn] at htask
      exact absurd rfl htask

/-- **A removal comes to an end.**  Let a removal notification begin in any state that a sound
    run reaches; between its steps calls may complete.  It goes on until it has returned,
    after `7 · count + 1` steps at most.  Let then anything happen but the initialisation of an
    interface: no more completions come than calls were outstanding when it returned, and as
    long as one is outstanding, one can complete.  Once none is outstanding, the next
    notification goes on until it has returned, and then it has returned `kUSBNoErr`. -/
theorem removal_finishes {usl : ℕ → UslAnswer} {slots : ℕ → Instance} {s s₁ : Registry}
    (h : Reach (registryStep usl) (fun s e => e.Sound s) (.boot slots) s)
    {es₁ : List RegistryEvent}
    (hok₁ : RunOk (registryStep usl) (fun s e => e.Sound s) s (.notify :: es₁))
    (hin₁ : ∀ e ∈ es₁, e.InNotification)
    (hrun₁ : runEvents (registryStep usl) s (.notify :: es₁) = some s₁) :
    s₁.Proceeds usl ∧ (es₁.map RegistryEvent.steps).sum ≤ 7 * s.count + 1 ∧
      ∀ busy, s₁.notify = .returned busy → ∀ es₂ s₂,
        RunOk (registryStep usl) (fun s e => e.Sound s) s₁ es₂ → (∀ e ∈ es₂, e.NoInit) →
        runEvents (registryStep usl) s₁ es₂ = some s₂ →
          s₂.outstanding + (es₂.map RegistryEvent.completions).sum ≤ s₁.outstanding ∧
          (s₂.outstanding ≠ 0 →
            ∃ k id, ∀ r, ∃ s', registryStep usl s₂ (.completion k id r) = some s') ∧
          (s₂.outstanding = 0 → ∀ es₃ s₃,
            RunOk (registryStep usl) (fun s e => e.Sound s) s₂ (.notify :: es₃) →
            (∀ e ∈ es₃, e.InNotification) →
            runEvents (registryStep usl) s₂ (.notify :: es₃) = some s₃ →
              s₃.Proceeds usl ∧ (es₃.map RegistryEvent.steps).sum ≤ 7 * s₂.count + 1 ∧
              ∀ busy', s₃.notify = .returned busy' → busy' = false) := by
  have hinv : RegInv s := h.inv (.boot slots) fun s e s' hs hok hst =>
    registryStep_inv hs hok.1 hok.2.1 hok.2.2 hst
  obtain ⟨⟨hinv₁, hmarks₁, hbegun₁⟩, hsteps₁⟩ := notification_left hinv hok₁ hin₁ hrun₁
  refine ⟨proceeds_of_ne_idle hbegun₁, by omega, ?_⟩
  intro busy hret es₂ s₂ hok₂ hin₂ hrun₂
  have hmarked : Marked s₁ := by
    rw [hret] at hmarks₁
    exact hmarks₁
  obtain ⟨⟨hinv₂, -⟩, hcalls⟩ := (hok₂.and hin₂).measure
    (I := fun s => RegInv s ∧ Marked s) (μ := Registry.outstanding) (w := RegistryEvent.completions)
    (fun s e s' hI hP hs => marked_step hI.1 hI.2 hP.1 hP.2 hs) ⟨hinv₁, hmarked⟩ hrun₂
  refine ⟨hcalls, completion_progress, ?_⟩
  intro h0 es₃ s₃ hok₃ hin₃ hrun₃
  obtain ⟨⟨-, -, hbegun₃⟩, hsteps₃⟩ := notification_left hinv₂ hok₃ hin₃ hrun₃
  refine ⟨proceeds_of_ne_idle hbegun₃, by omega, fun busy' hret₃ => ?_⟩
  have hquiet := notification_unbusy hinv₂ h0 hok₃ hin₃ hrun₃
  rw [hret₃] at hquiet
  exact hquiet

/-- The registry after the events `es` from `s`, where they are enabled. -/
def afterPending (es : List RegistryEvent) (s : Registry) : Registry :=
  (runEvents (registryStep pendingUsl) s es).getD s

theorem afterPending_eq (es : List RegistryEvent) (s : Registry)
    (h : (runEvents (registryStep pendingUsl) s es).isSome = true) :
    runEvents (registryStep pendingUsl) s es = some (afterPending es s) := by
  obtain ⟨s', hs⟩ := Option.isSome_iff_exists.1 h
  rw [afterPending, hs]
  rfl

/-- The run of a removal: one call is outstanding, and completes after a refusal. -/
theorem removal_finishes_pending : ∃ s s₁ s₂ s₃,
    runEvents (registryStep pendingUsl) (.boot fun _ => default) [.init midiStreaming 10] = some s ∧
      runEvents (registryStep pendingUsl) s (notification 6 true) = some s₁ ∧
      runEvents (registryStep pendingUsl) s₁ [.completion 0 0 (okResult 0 [])] = some s₂ ∧
      runEvents (registryStep pendingUsl) s₂ (notification 5 true) = some s₃ ∧
      s₂.outstanding + 1 ≤ s₁.outstanding ∧ s₃.notify = .returned false := by
  let s := afterPending [.init midiStreaming 10] (.boot fun _ => default)
  let s₁ := afterPending (notification 6 true) s
  let s₂ := afterPending [.completion 0 0 (okResult 0 [])] s₁
  let s₃ := afterPending (notification 5 true) s₂
  have hs := afterPending_eq [.init midiStreaming 10] (.boot fun _ => default)
    (by decide +kernel)
  have hs₁ := afterPending_eq (notification 6 true) s (by decide +kernel)
  have hs₂ := afterPending_eq [.completion 0 0 (okResult 0 [])] s₁ (by decide +kernel)
  have hs₃ := afterPending_eq (notification 5 true) s₂ (by decide +kernel)
  have hret₁ : s₁.notify = .returned true := by decide +kernel
  have h0 : s₂.outstanding = 0 := by decide +kernel
  obtain ⟨-, hsteps, hrest⟩ := removal_finishes (.of_run (by decide +kernel) hs)
    (by decide +kernel) (by decide) hs₁
  obtain ⟨hcalls, -, hlast⟩ := hrest true hret₁ _ s₂ (by decide +kernel) (by decide) hs₂
  obtain ⟨-, -, hquiet⟩ := hlast h0 _ s₃ (by decide +kernel) (by decide) hs₃
  have hret : ∃ busy, s₃.notify = .returned busy := ⟨false, by decide +kernel⟩
  obtain ⟨busy, hret⟩ := hret
  obtain rfl := hquiet busy hret
  exact ⟨s, s₁, s₂, s₃, hs, hs₁, hs₂, hs₃, hcalls, hret⟩

end Usbmidi9
