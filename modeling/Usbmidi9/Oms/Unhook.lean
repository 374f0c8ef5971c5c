/-
  USBMIDI9 — the push hooks that the shim leaves behind (`oms/oms_driver.c`).

  `omdvDispose` clears the hook on the interfaces of the class driver that is bound, so
  a class driver that was dropped before keeps it: `omdvInit` zeroes `g_oms.table`
  without a look at it, and a removal notification drops it.  A class driver that is not
  bound may also claim a slot with an old hook in it.

  `ShimEvent.Keeps` is the condition on an event that excludes this.
  `keeps_iff` is the step: it holds exactly if only the bound class driver holds the
  hook afterwards.  `dispose_unhooks` is the result over runs, `not_dispose_unhooks` a run
  with a second `omdvInit`.
-/
import Usbmidi9.Oms.Slots

namespace Usbmidi9

/-! ## Class drivers -/

/-- One more interface.  Its hook is left as the slot has it. -/
def ClassDriver.claim (buf : ℕ → RingByte) (d : ClassDriver) : ClassDriver :=
  { d with count := d.count + 1, rings := Function.update d.rings d.count ⟨some buf, 0, 0⟩ }

/-- Interface `i` is disposed of: the last one moves into its slot. -/
def ClassDriver.dispose (i : ℕ) (d : ClassDriver) : ClassDriver :=
  { d with
    count := d.count - 1
    rings := Function.update d.rings i
      (if i < d.count - 1 then d.rings (d.count - 1) else { d.rings i with buf := none })
    hooks := if i < d.count - 1 then Function.update d.hooks i (d.hooks (d.count - 1))
      else d.hooks }

/-- A removal notification clears slot `i`. -/
def ClassDriver.unhook (i : ℕ) (d : ClassDriver) : ClassDriver :=
  { d with hooks := Function.update d.hooks i false }

/-- The class driver is unloaded.  What is loaded in its place has no interface yet. -/
def ClassDriver.unloaded (d : ClassDriver) : ClassDriver :=
  { d with count := 0, hooks := fun _ => false }

/-- `oms_rx_event` is registered with an interface of a class driver. -/
def Oms.HoldsHook (s : Oms) (t : ℕ) : Prop :=
  ∃ i < (s.drivers t).count, (s.drivers t).hooks i = true

instance (s : Oms) (t : ℕ) : Decidable (s.HoldsHook t) :=
  inferInstanceAs (Decidable (∃ i < (s.drivers t).count, _))

/-! ## Events -/

inductive ShimEvent where
  | message (m : OmsMessage)
  | notification (n : DeviceNotification)
  | completion (t i : ℕ) (data : List UInt8)
  | send (pkt : Option OmsMidiPacket) (refCon : ℕ)
  /-- a class driver claims its next slot -/
  | claim (t : ℕ) (buf : ℕ → RingByte)
  /-- a class driver finalizes an interface -/
  | dispose (t i : ℕ)
  /-- a class driver that is told of its removal clears a slot -/
  | unhook (t i : ℕ)
  /-- a class driver is unloaded -/
  | unload (t : ℕ)

/-- One event. -/
def shimStep (s : Oms) : ShimEvent → Option Oms
  | .message m => some (omsHandleMessage s m)
  | .notification n => some (omsUsbNotify s n)
  | .completion t i data =>
    if i < (s.drivers t).count then some (omsCompletion s t i data) else none
  | .send pkt refCon => omsTxSend s pkt refCon
  | .claim t buf =>
    if (s.drivers t).count < omsMaxInterfaces then some (s.setDriver t ((s.drivers t).claim buf))
    else none
  | .dispose t i =>
    if i < (s.drivers t).count then some (s.setDriver t ((s.drivers t).dispose i)) else none
  | .unhook t i => some (s.setDriver t ((s.drivers t).unhook i))
  | .unload t => some (s.setDriver t (s.drivers t).unloaded)

namespace HookState

/-- One event of the abstract model. -/
def step (h : HookState) : ShimEvent → HookState
  | .message m => h.handle m
  | .notification n => h.notify n
  | .completion .. | .send .. => h
  | .claim t _ => h.update t .claim
  | .dispose t i => h.update t (.dispose i)
  | .unhook t i => h.update t (.unhook i)
  | .unload t => h.update t .unloaded

/-- The table that is bound. -/
def table (h : HookState) : Option ℕ := h.bound.map Prod.fst

/-- What is bound in the course of an `omdvInit`, before its own lookup. -/
def along (h : HookState) (a : InitAnswers) : List (Option (ℕ × ℤ)) :=
  a.installed.scanl h.notified none

/-- What is bound after an `omdvInit`. -/
def found (h : HookState) (a : InitAnswers) : Option (ℕ × ℤ) :=
  h.located (a.installed.foldl h.notified none) a.devices

end HookState

/-- An event drops no class driver that holds the hook.  An `omdvInit` ends with the class
    driver that holds it, or that it gives it to; a removal notification for the bound one
    comes after it cleared its hooks; and one that is not bound claims no slot with an old
    hook. -/
def ShimEvent.Keeps (h : HookState) : ShimEvent → Prop
  | .message (.init a) => ∀ t, (h.tables t).Holds ∨
      0 < (h.tables t).count ∧ (∃ b ∈ h.along a, b.map Prod.fst = some t) →
        (h.found a).map Prod.fst = some t
  | .notification (.remove deviceRef) => ∀ t, h.bound = some (t, deviceRef) → ¬(h.tables t).Holds
  | .claim t _ => h.table = some t ∨ (h.tables t).hooks (h.tables t).count = false
  | _ => True

/-- **An event** acts on the hooks as the abstract one. -/
theorem shimStep_hooks {s s' : Oms} {e : ShimEvent} (hs : shimStep s e = some s') :
    s'.hookState = s.hookState.step e := by
  cases e with
  | message m => exact Option.some.inj hs ▸ omsHandleMessage_hooks s m
  | notification n => exact Option.some.inj hs ▸ omsUsbNotify_hooks s n
  | completion t i data =>
    simp only [shimStep] at hs
    split_ifs at hs
    exact Option.some.inj hs ▸ omsCompletion_hooks s t i data
  | send pkt refCon => exact omsTxSend_hooks hs
  | claim t buf =>
    simp only [shimStep] at hs
    split_ifs at hs
    exact Option.some.inj hs ▸ s.hookState_update rfl
  | dispose t i =>
    simp only [shimStep] at hs
    split_ifs at hs
    exact Option.some.inj hs ▸ s.hookState_update rfl
  | unhook t i => exact Option.some.inj hs ▸ s.hookState_update rfl
  | unload t => exact Option.some.inj hs ▸ s.hookState_update rfl

/-! ## The hooks after an event -/

namespace HookState
variable {h : HookState}

/-- No other table than the bound one holds the hook. -/
def Only (h : HookState) : Prop := ∀ t, (h.tables t).Holds → h.table = some t

/-- `b` has `setEventCallback`, if it is a table. -/
def Callable (h : HookState) (b : Option (ℕ × ℤ)) : Prop :=
  ∀ p ∈ b, (h.tables p.1).hasEventCallback = true

/-- What holds in every run: a bound table can be called, and no table has more interfaces
    than the shim looks at. -/
structure Inv (h : HookState) : Prop where
  callable : h.Callable h.bound
  count : ∀ t, (h.tables t).count ≤ omsMaxInterfaces

/-! ### A table is bound -/

/-- What is bound only changes the hooks of the tables. -/
theorem bind_desc (h : HookState) (b : Option (ℕ × ℤ)) (t : ℕ) :
    ∃ hooks, (h.bind b).tables t = { h.tables t with hooks := hooks } := by
  unfold bind
  split
  · next t' r _ =>
    show ∃ hooks, (h.setHooks t' true).tables t = _
    rw [setHooks, tables_update]
    split_ifs
    · exact ⟨_, rfl⟩
    · exact ⟨_, rfl⟩
  · exact ⟨_, rfl⟩

theorem bind_bindable (h : HookState) (b : Option (ℕ × ℤ)) : (h.bind b).bindable = h.bindable := by
  funext sym
  have hsame : ∀ t, ((h.bind b).tables t).Bindable ↔ (h.tables t).Bindable := by
    intro t
    obtain ⟨hooks, heq⟩ := h.bind_desc b t
    rw [heq]
    exact Iff.rfl
  simp only [bindable, hsame]

theorem bind_notified (h : HookState) (b : Option (ℕ × ℤ)) : (h.bind b).notified = h.notified := by
  funext b' n
  cases n <;> simp only [notified, bind_bindable]

theorem bind_located (h : HookState) (b : Option (ℕ × ℤ)) : (h.bind b).located = h.located := by
  funext b' devices
  simp only [located, bind_bindable]

theorem bind_count (h : HookState) (b : Option (ℕ × ℤ)) (t : ℕ) :
    ((h.bind b).tables t).count = (h.tables t).count := by
  obtain ⟨hooks, heq⟩ := h.bind_desc b t
  rw [heq]

/-- A table holds the hook if it did before, or if it is bound where none was. -/
theorem holds_bind (b : Option (ℕ × ℤ)) (t : ℕ) : ((h.bind b).tables t).Holds ↔
    (h.tables t).Holds ∨ h.bound = none ∧ b.map Prod.fst = some t ∧ 0 < (h.tables t).count := by
  unfold bind
  split
  · next t' r hnone =>
    show ((h.setHooks t' true).tables t).Holds ↔ _
    rw [setHooks, tables_update]
    split_ifs with ht
    · subst ht
      rw [HookTable.holds_setHooks]
      constructor
      · exact fun hpos => .inr ⟨hnone, rfl, hpos⟩
      · rintro (hholds | ⟨-, -, hpos⟩)
        · exact hholds.pos
        · exact hpos
    · constructor
      · exact .inl
      · rintro (hholds | ⟨-, heq, -⟩)
        · exact hholds
        · exact absurd (Option.some.inj heq).symm ht
  · next hne =>
    constructor
    · exact .inl
    · rintro (hholds | ⟨hnone, heq, -⟩)
      · exact hholds
      · obtain ⟨p, hp, -⟩ := Option.map_eq_some_iff.1 heq
        exact absurd hp (hne p.1 p.2 hnone)

/-- Nothing but a bound table is dropped. -/
theorem Only.bind (ho : h.Only) {b : Option (ℕ × ℤ)} (hb : h.bound = none ∨ b = h.bound) :
    (h.bind b).Only := by
  intro t hholds
  rw [table, bind_bound]
  rcases (holds_bind b t).1 hholds with hheld | ⟨-, heq, -⟩
  · have htable := ho t hheld
    rcases hb with hnone | rfl
    · rw [table, hnone] at htable
      cases htable
    · exact htable
  · exact heq

/-! ### The other operations -/

/-- A table changes, and no other is bound. -/
theorem only_update (ho : h.Only) {t : ℕ} {f : HookTable → HookTable} :
    (h.update t f).Only ↔ ((f (h.tables t)).Holds → h.table = some t) := by
  constructor
  · intro honly hholds
    refine honly t ?_
    rw [tables_update, if_pos rfl]
    exact hholds
  · intro htable t' hholds
    rw [tables_update] at hholds
    split_ifs at hholds with ht
    · subst ht
      exact htable hholds
    · exact ho t' hholds

theorem Only.locate (ho : h.Only) (devices : List (ℤ × SymbolAnswer)) :
    (h.locate devices).Only := by
  refine ho.bind ?_
  rcases hb : h.bound with _ | p
  · exact .inl rfl
  · exact .inr rfl

theorem Only.register (ho : h.Only) : h.register.Only := by
  unfold HookState.register
  split
  · next t r hsome =>
    refine (only_update ho).2 fun _ => ?_
    rw [table, hsome]
    rfl
  · exact ho

/-- `omdvDispose` clears the table that is bound. -/
theorem holds_dispose (hi : h.Inv) (t : ℕ) :
    ((h.handle .dispose).tables t).Holds ↔ (h.tables t).Holds ∧ h.table ≠ some t := by
  show (h.unregister.tables t).Holds ↔ _
  unfold unregister table
  split
  · next t' r hsome =>
    rw [if_pos (hi.callable (t', r) hsome), setHooks, tables_update, hsome]
    split_ifs with ht
    · subst ht
      constructor
      · exact fun hholds => absurd hholds (HookTable.not_holds_setHooks (hi.count t))
      · exact fun hholds => absurd rfl hholds.2
    · have hne : Option.map Prod.fst (some (t', r)) ≠ some t := fun heq =>
        ht (Option.some.inj heq).symm
      exact (and_iff_left hne).symm
  · next hnone =>
    rw [hnone]
    exact (and_iff_left (Option.some_ne_none t).symm).symm

/-- No table holds the hook after an `omdvDispose` if the bound one alone does before. -/
theorem dispose_iff (hi : h.Inv) : (∀ t, ¬((h.handle .dispose).tables t).Holds) ↔ h.Only := by
  constructor
  · intro hnone t hholds
    by_contra hne
    exact hnone t ((holds_dispose hi t).2 ⟨hholds, hne⟩)
  · intro ho t hholds
    obtain ⟨hheld, hne⟩ := (holds_dispose hi t).1 hholds
    exact hne (ho t hheld)

/-! ### `omdvInit` -/

/-- A removal notification for the bound table's device drops it. -/
theorem notified_remove (p : ℕ × ℤ) (deviceRef : ℤ) :
    h.notified (some p) (.remove deviceRef) = if p.2 = deviceRef then none else some p := by
  show Option.filter (fun p => decide (p.2 ≠ deviceRef)) (some p) = _
  rw [Option.filter_some]
  split_ifs with hdec heq heq
  · exact absurd heq (of_decide_eq_true hdec)
  · rfl
  · rfl
  · exact absurd (decide_eq_true heq) hdec

theorem notified_of_some {b : Option (ℕ × ℤ)} (hb : b ≠ none) (n : DeviceNotification) :
    h.notified b n = b ∨ h.notified b n = none := by
  obtain ⟨p, rfl⟩ := Option.ne_none_iff_exists'.1 hb
  cases n with
  | add deviceRef conn => exact .inl rfl
  | remove deviceRef =>
    rw [notified_remove]
    split_ifs
    · exact .inr rfl
    · exact .inl rfl
  | other => exact .inl rfl

/-- Notifications change what is bound, and the hooks. -/
theorem notifications_bound (h : HookState) (l : List DeviceNotification) :
    (l.foldl notify h).bound = l.foldl h.notified h.bound ∧
      (l.foldl notify h).located = h.located ∧
      ∀ t, ((l.foldl notify h).tables t).count = (h.tables t).count := by
  induction l generalizing h with
  | nil => exact ⟨rfl, rfl, fun _ => rfl⟩
  | cons n l ih =>
    obtain ⟨hbound, hlocated, hcount⟩ := ih (h.notify n)
    rw [List.foldl_cons, List.foldl_cons]
    refine ⟨?_, hlocated.trans (h.bind_located _), fun t => (hcount t).trans (h.bind_count _ t)⟩
    rw [hbound, notify, bind_notified, bind_bound]

/-- A table holds the hook after notifications if it did before, or if it was bound in
    their course. -/
theorem holds_notifications (hb : ∀ t, h.table = some t → 0 < (h.tables t).count →
    (h.tables t).Holds) (l : List DeviceNotification) (t : ℕ) :
    ((l.foldl notify h).tables t).Holds ↔ (h.tables t).Holds ∨
      0 < (h.tables t).count ∧ ∃ b ∈ l.scanl h.notified h.bound, b.map Prod.fst = some t := by
  induction l generalizing h with
  | nil =>
    constructor
    · exact .inl
    · rintro (hholds | ⟨hpos, b, hmem, heq⟩)
      · exact hholds
      · rw [List.scanl_nil, List.mem_singleton] at hmem
        subst hmem
        exact hb t heq hpos
  | cons n l ih =>
    have hnext : ∀ t, (h.notify n).table = some t → 0 < ((h.notify n).tables t).count →
        ((h.notify n).tables t).Holds := by
      intro t ht hpos
      rw [table, notify, bind_bound] at ht
      rw [notify, bind_count] at hpos
      refine (holds_bind _ t).2 ?_
      by_cases hnone : h.bound = none
      · exact .inr ⟨hnone, ht, hpos⟩
      · rcases h.notified_of_some hnone n with hsame | hdrop
        · rw [hsame] at ht
          exact .inl (hb t ht hpos)
        · rw [hdrop] at ht
          cases ht
    have hrest := ih hnext
    rw [notify, bind_notified, bind_bound, bind_count, holds_bind] at hrest
    rw [List.foldl_cons, notify, hrest, List.scanl_cons]
    constructor
    · rintro ((hholds | ⟨-, heq, hpos⟩) | ⟨hpos, b, hmem, heq⟩)
      · exact .inl hholds
      · have hmem : h.notified h.bound n ∈ l.scanl h.notified (h.notified h.bound n) :=
          List.mem_of_mem_head? List.head?_scanl
        exact .inr ⟨hpos, _, List.mem_cons_of_mem _ hmem, heq⟩
      · exact .inr ⟨hpos, b, List.mem_cons_of_mem _ hmem, heq⟩
    · rintro (hholds | ⟨hpos, b, hmem, heq⟩)
      · exact .inl (.inl hholds)
      · rcases List.mem_cons.1 hmem with rfl | hmem
        · exact .inl (.inl (hb t heq hpos))
        · exact .inr ⟨hpos, b, hmem, heq⟩

/-- What is bound after an `omdvInit`. -/
theorem init_bound (h : HookState) (a : InitAnswers) : (h.handle (.init a)).bound = h.found a := by
  obtain ⟨hbound, hlocated, -⟩ := notifications_bound { h with bound := none } a.installed
  show (HookState.bind _ _).bound = _
  rw [bind_bound, hlocated, hbound]
  rfl

/-- A table holds the hook after an `omdvInit` if it did before, or if it was bound in its
    course. -/
theorem holds_init (h : HookState) (a : InitAnswers) (t : ℕ) :
    ((h.handle (.init a)).tables t).Holds ↔ (h.tables t).Holds ∨ 0 < (h.tables t).count ∧
      ((∃ b ∈ h.along a, b.map Prod.fst = some t) ∨ (h.found a).map Prod.fst = some t) := by
  have hfree : ∀ t, ({ h with bound := none } : HookState).table = some t →
      0 < (h.tables t).count → (h.tables t).Holds := by
    intro t ht
    cases ht
  obtain ⟨hbound, hlocated, hcount⟩ := notifications_bound { h with bound := none } a.installed
  have hnotes := holds_notifications hfree a.installed t
  show (HookState.tables (HookState.bind _ _) t).Holds ↔ _
  rw [holds_bind, hlocated, hbound, hcount, hnotes]
  constructor
  · rintro ((hholds | ⟨hpos, hmem⟩) | ⟨-, heq, hpos⟩)
    · exact .inl hholds
    · exact .inr ⟨hpos, .inl hmem⟩
    · exact .inr ⟨hpos, .inr heq⟩
  · rintro (hholds | ⟨hpos, hmem | heq⟩)
    · exact .inl (.inl hholds)
    · exact .inl (.inr ⟨hpos, hmem⟩)
    · rcases hlast : a.installed.foldl h.notified none with _ | p
      · exact .inr ⟨hlast, heq, hpos⟩
      · have hmem : some p ∈ h.along a := List.mem_of_getLast? (List.getLast?_scanl.trans
          (congrArg some hlast))
        have hfound : h.found a = some p := by
          rw [found, hlast]
          rfl
        exact .inl (.inr ⟨hpos, _, hmem, hfound ▸ heq⟩)

/-! ### The step -/

/-- A removal notification drops nothing exactly if the bound table has cleared its hooks. -/
theorem keeps_remove (ho : h.Only) (deviceRef : ℤ) :
    (∀ t, h.bound = some (t, deviceRef) → ¬(h.tables t).Holds) ↔
      (h.notify (.remove deviceRef)).Only := by
  have hsame : h.notified h.bound (.remove deviceRef) = h.bound →
      (h.notify (.remove deviceRef)).Only := by
    intro heq
    rw [notify, heq, bind_self]
    exact ho
  rcases hb : h.bound with _ | ⟨t, r⟩
  · refine iff_of_true ?_ (hsame (hb ▸ rfl))
    intro t heq
    cases heq
  · rw [hb, notified_remove] at hsame
    by_cases hr : r = deviceRef
    · subst hr
      have hdrop : h.notify (.remove r) = { h with bound := none } := by
        rw [notify, hb, notified_remove, if_pos rfl, bind_none]
      rw [hdrop]
      constructor
      · intro hfree t' hholds
        have htable : t = t' := by
          have heq := ho t' hholds
          rw [table, hb] at heq
          exact Option.some.inj heq
        subst htable
        exact absurd hholds (hfree t rfl)
      · intro honly t' _ hholds
        cases honly t' hholds
    · refine iff_of_true ?_ (hsame (if_neg hr))
      intro t' heq
      exact absurd (congrArg Prod.snd (Option.some.inj heq)) hr

/-- **The step.**  Nothing is left behind exactly if the event keeps it. -/
theorem keeps_iff (hi : h.Inv) (ho : h.Only) (e : ShimEvent) : e.Keeps h ↔ (h.step e).Only := by
  cases e with
  | message m =>
    cases m with
    | init a =>
      have htable : (h.step (.message (.init a))).table = (h.found a).map Prod.fst :=
        congrArg (Option.map Prod.fst) (h.init_bound a)
      constructor
      · intro hkeeps t hholds
        rw [htable]
        rcases (h.holds_init a t).1 hholds with hheld | ⟨hpos, hmem | heq⟩
        · exact hkeeps t (.inl hheld)
        · exact hkeeps t (.inr ⟨hpos, hmem⟩)
        · exact heq
      · intro honly t hheld
        rw [← htable]
        refine honly t ((h.holds_init a t).2 ?_)
        exact hheld.imp id fun hmem => ⟨hmem.1, .inl hmem.2⟩
    | dispose =>
      refine iff_of_true trivial fun t hholds => ?_
      exact absurd hholds ((dispose_iff hi).2 ho t)
    | addDevices hasProc devices =>
      refine iff_of_true trivial ?_
      show (if hasProc then (h.locate devices).register else h).Only
      split_ifs
      · exact (ho.locate devices).register
      · exact ho
    | startMIDI2 devices => exact iff_of_true trivial (ho.locate devices)
    | _ => exact iff_of_true trivial ho
  | notification n =>
    cases n with
    | add deviceRef conn =>
      refine iff_of_true trivial (ho.bind ?_)
      rcases h.bound with _ | p
      · exact .inl rfl
      · exact .inr rfl
    | remove deviceRef => exact keeps_remove ho deviceRef
    | other => exact iff_of_true trivial (ho.bind (.inr rfl))
  | completion t i data => exact iff_of_true trivial ho
  | send pkt refCon => exact iff_of_true trivial ho
  | claim t buf =>
    refine Iff.trans ?_ (only_update ho).symm
    rw [HookTable.holds_claim]
    constructor
    · rintro (htable | hfalse) hholds
      · exact htable
      · rcases hholds with hheld | htrue
        · exact ho t hheld
        · rw [hfalse] at htrue
          cases htrue
    · intro htable
      rcases hslot : (h.tables t).hooks (h.tables t).count with _ | _
      · exact .inr hslot
      · exact .inl (htable (.inr hslot))
  | dispose t i => exact iff_of_true trivial ((only_update ho).2 fun hh => ho t hh.of_dispose)
  | unhook t i => exact iff_of_true trivial ((only_update ho).2 fun hh => ho t hh.of_unhook)
  | unload t =>
    exact iff_of_true trivial ((only_update ho).2 fun hh => absurd hh HookTable.not_holds_unloaded)

/-! ### The invariant -/

theorem bindable_callable {sym : SymbolAnswer} {t : ℕ} (hb : h.bindable sym = some t) :
    (h.tables t).hasEventCallback = true := by
  unfold bindable at hb
  split_ifs at hb
  exact (of_decide_eq_true (Option.filter_eq_some_iff.1 hb).2).2

theorem Callable.notified {b : Option (ℕ × ℤ)} (hb : h.Callable b) (n : DeviceNotification) :
    h.Callable (h.notified b n) := by
  rcases b with _ | p
  · cases n with
    | add deviceRef conn =>
      intro q hq
      obtain ⟨t, ht, rfl⟩ := Option.map_eq_some_iff.1 hq
      obtain ⟨sym, -, hsym⟩ := Option.bind_eq_some_iff.1 ht
      exact bindable_callable hsym
    | remove deviceRef => exact hb
    | other => exact hb
  · rcases h.notified_of_some (Option.some_ne_none p) n with heq | heq
    · rw [heq]
      exact hb
    · rw [heq]
      intro q hq
      cases hq

theorem Callable.located {b : Option (ℕ × ℤ)} (hb : h.Callable b)
    (devices : List (ℤ × SymbolAnswer)) : h.Callable (h.located b devices) := by
  rcases b with _ | p
  · intro q hq
    obtain ⟨d, -, hd⟩ := List.exists_of_findSome?_eq_some hq
    obtain ⟨t, ht, rfl⟩ := Option.map_eq_some_iff.1 hd
    exact bindable_callable ht
  · exact hb

namespace Inv

theorem unbound (hi : h.Inv) : ({ h with bound := none } : HookState).Inv := by
  refine ⟨?_, hi.count⟩
  intro p hp
  cases hp

theorem bind (hi : h.Inv) {b : Option (ℕ × ℤ)} (hb : h.Callable b) : (h.bind b).Inv := by
  constructor
  · intro p hp
    rw [bind_bound] at hp
    obtain ⟨hooks, heq⟩ := h.bind_desc b p.1
    rw [heq]
    exact hb p hp
  · intro t
    rw [bind_count]
    exact hi.count t

theorem notify (hi : h.Inv) (n : DeviceNotification) : (h.notify n).Inv :=
  hi.bind (hi.callable.notified n)

theorem locate (hi : h.Inv) (devices : List (ℤ × SymbolAnswer)) : (h.locate devices).Inv :=
  hi.bind (hi.callable.located devices)

theorem update (hi : h.Inv) {t : ℕ} {f : HookTable → HookTable}
    (hf : (f (h.tables t)).hasEventCallback = (h.tables t).hasEventCallback)
    (hc : (f (h.tables t)).count ≤ omsMaxInterfaces) : (h.update t f).Inv := by
  constructor
  · intro p hp
    rw [tables_update]
    split_ifs with ht
    · subst ht
      exact hf.trans (hi.callable p hp)
    · exact hi.callable p hp
  · intro t'
    rw [tables_update]
    split_ifs with ht
    · subst ht
      exact hc
    · exact hi.count t'

theorem handle (hi : h.Inv) (m : OmsMessage) : (h.handle m).Inv := by
  have hhooks : ∀ {h : HookState} (t : ℕ) (hook : Bool), h.Inv → (h.setHooks t hook).Inv :=
    fun t _ hi => hi.update rfl (hi.count t)
  cases m with
  | init a =>
    have hnotes : (a.installed.foldl HookState.notify { h with bound := none }).Inv :=
      List.foldlRecOn _ _ hi.unbound fun _ hi' n _ => hi'.notify n
    exact hnotes.locate a.devices
  | dispose =>
    have hunregister : h.unregister.Inv := by
      unfold HookState.unregister
      split
      · split_ifs
        · exact hhooks _ _ hi
        · exact hi
      · exact hi
    exact hunregister.unbound
  | addDevices hasProc devices =>
    have hregister : (h.locate devices).register.Inv := by
      unfold HookState.register
      split
      · exact hhooks _ _ (hi.locate devices)
      · exact hi.locate devices
    show (if hasProc then (h.locate devices).register else h).Inv
    split_ifs
    · exact hregister
    · exact hi
  | startMIDI2 devices => exact hi.locate devices
  | _ => exact hi

end Inv

end HookState

/-- **Every event** keeps the invariant. -/
theorem shimStep_inv {s s' : Oms} {e : ShimEvent} (hi : s.hookState.Inv)
    (hs : shimStep s e = some s') : s'.hookState.Inv := by
  rw [shimStep_hooks hs]
  cases e with
  | message m => exact hi.handle m
  | notification n => exact hi.notify n
  | completion t i data => exact hi
  | send pkt refCon => exact hi
  | claim t buf =>
    simp only [shimStep] at hs
    split_ifs at hs with hlt
    exact hi.update rfl hlt
  | dispose t i => exact hi.update rfl ((Nat.sub_le _ 1).trans (hi.count t))
  | unhook t i => exact hi.update rfl (hi.count t)
  | unload t => exact hi.update rfl (Nat.zero_le _)

/-! ## Runs -/

/-- A class driver that the shim has not registered with. -/
def ClassDriver.Unhooked (d : ClassDriver) : Prop :=
  d.count ≤ omsMaxInterfaces ∧ ∀ i, d.hooks i = false

/-- What a class driver does by itself is one of the events. -/
theorem exists_of_move {s : Oms} {t : ℕ} {d : HookTable}
    (h : (s.drivers t).hookTable.Move d) :
    ∃ es s', runEvents shimStep s es = some s' ∧
      s'.hookState = s.hookState.update t fun _ => d := by
  have hevent : ∀ (e : ShimEvent) {s' : Oms}, shimStep s e = some s' →
      s.hookState.step e = (s.hookState.update t fun _ => d) →
        ∃ es s', runEvents shimStep s es = some s' ∧
          s'.hookState = s.hookState.update t fun _ => d := by
    intro e s' hs hstep
    exact ⟨[e], s', congrArg (·.bind fun s => some s) hs, (shimStep_hooks hs).trans hstep⟩
  cases h with
  | same =>
    refine ⟨[], s, rfl, ?_⟩
    exact (congrArg (HookState.mk _) (Function.update_eq_self t _)).symm
  | claim hlt => exact hevent (.claim t default) (if_pos hlt) rfl
  | dispose hi => exact hevent (.dispose t _) (if_pos hi) rfl
  | unhook i => exact hevent (.unhook t i) rfl rfl

/-- An `omdvDispose` leaves no hook behind exactly if only the bound table holds it. -/
theorem omsDispose_iff {s : Oms} (hi : s.hookState.Inv) :
    (∀ t, ¬(omsDispose s).HoldsHook t) ↔ s.hookState.Only := by
  rw [← HookState.dispose_iff hi, ← omsDispose_hooks]
  exact Iff.rfl

/-- **No dangling push hook** after an `omdvDispose`, at any point of a run, exactly if the
    events keep the hooks: no `omdvInit` ends without the class driver that holds them, no
    removal notification drops one that still does, and no other one claims a slot with an
    old hook. -/
theorem dispose_unhooks {drivers : ℕ → ClassDriver} (hdrivers : ∀ t, (drivers t).Unhooked)
    {es : List ShimEvent} {s : Oms} (hr : runEvents shimStep (.boot drivers) es = some s) :
    RunOk shimStep (fun s e => e.Keeps s.hookState) (.boot drivers) es ↔
      ∀ es₁ s₁, es₁ <+: es → runEvents shimStep (.boot drivers) es₁ = some s₁ →
        ∀ t, ¬(omsDispose s₁).HoldsHook t := by
  have hboot : (Oms.boot drivers).hookState.Inv := by
    refine ⟨?_, fun t => (hdrivers t).1⟩
    intro p hp
    cases hp
  have hnone : (Oms.boot drivers).hookState.Only := by
    rintro t ⟨i, -, hhook⟩
    exact absurd hhook (Bool.eq_false_iff.1 ((hdrivers t).2 i))
  refine runOk_iff (I := fun s => s.hookState.Inv)
    (P := fun s => ∀ t, ¬(omsDispose s).HoldsHook t) (fun _ _ _ hi hs => shimStep_inv hi hs) ?_ hr
    hboot ((omsDispose_iff hboot).2 hnone)
  intro s e s' hi hp hs
  have ho := (omsDispose_iff hi).1 hp
  rw [omsDispose_iff (shimStep_inv hi hs), shimStep_hooks hs]
  exact HookState.keeps_iff hi ho e

/-- `omdvInit` twice, with a class driver found both times. -/
def reinitEvents : List ShimEvent :=
  [.message (.init ⟨none, [], none, [(1, ⟨omsNoErr, some 0⟩)], 1⟩),
    .message (.init ⟨none, [], none, [(1, ⟨omsNoErr, some 0⟩)], 1⟩)]

/-- `omdvInit` twice, with no class driver found the second time. -/
def forgottenEvents : List ShimEvent :=
  [.message (.init ⟨none, [], none, [(1, ⟨omsNoErr, some 0⟩)], 1⟩),
    .message (.init ⟨none, [], none, [], 1⟩)]

theorem single_unhooked : ClassDriver.single.Unhooked := ⟨by decide, fun _ => rfl⟩

theorem dispose_unhooks_reinit : ∃ s,
    runEvents shimStep (.boot fun _ => .single) reinitEvents = some s ∧
      ∀ t, ¬(omsDispose s).HoldsHook t := by
  have hkeeps : ∀ (s : Oms) (a : InitAnswers), a.installed = [] →
      (∀ t, (s.hookState.tables t).Holds → (s.hookState.found a).map Prod.fst = some t) →
        (ShimEvent.message (.init a)).Keeps s.hookState := by
    rintro s a hinstalled hfound t (hholds | ⟨-, b, hmem, heq⟩)
    · exact hfound t hholds
    · rw [HookState.along, hinstalled, List.scanl_nil, List.mem_singleton] at hmem
      subst hmem
      cases heq
  have hrun : RunOk shimStep (fun s e => e.Keeps s.hookState) (.boot fun _ => .single)
      reinitEvents := by
    refine ⟨hkeeps _ _ rfl ?_, ?_⟩
    · rintro t ⟨i, -, hhook⟩
      cases hhook
    · rintro s hs
      obtain rfl := Option.some.inj hs
      refine ⟨hkeeps _ _ rfl ?_, fun _ _ => trivial⟩
      intro t hholds
      rw [omsHandleMessage_hooks, HookState.holds_init] at hholds
      rcases hholds with ⟨i, -, hhook⟩ | ⟨-, ⟨b, hmem, heq⟩ | hfound⟩
      · cases hhook
      · obtain rfl : b = none := List.mem_singleton.1 hmem
        cases heq
      · rw [← hfound]
        decide +kernel
  exact ⟨_, rfl, (dispose_unhooks (fun _ => single_unhooked) rfl).1 hrun reinitEvents _
    List.prefix_rfl rfl⟩

/-- **A second `omdvInit`** that finds no class driver leaves the hook behind. -/
theorem not_dispose_unhooks : ∃ s,
    ClassDriver.single.Unhooked ∧
      runEvents shimStep (.boot fun _ => .single) forgottenEvents = some s ∧
      (omsDispose s).HoldsHook 0 := by
  exact ⟨_, single_unhooked, rfl, by decide +kernel⟩

end Usbmidi9
