/-
  USBMIDI9 — the connections of the registry and their memory blocks
  (`classic/usb_driver.c`).

  A finalize disposes of a slot and moves the last instance into it, so a connection is
  known by its number, not by its slot.  A `Ledger` is the registry with the log of each
  connection; the blocks that were passed to `USBDeallocMem` for it are read off the trace.

  `Books` is the invariant of runs that finalize only while no call is outstanding:
  a connection that is open holds what it obtained and had nothing deallocated, and of
  one that is closed exactly what it obtained was.  `finalize_one` is the result.
-/
import Usbmidi9.Classic.Blocks
import Usbmidi9.Classic.Projection

namespace Usbmidi9

/-! ## Ledgers -/

/-- The registry, and by the numbers of the connections their logs. -/
structure Ledger where
  reg : Registry
  log : ℕ → List UslEntry

namespace Ledger

/-- By the numbers of the connections, the blocks that were passed to `USBDeallocMem`. -/
def freed (a : Ledger) (c : ℕ) : List ℕ := freedFor c a.reg.trace

/-- The number of the connection in a slot. -/
abbrev conn (a : Ledger) (k : ℕ) : ℕ := (a.reg.inst k).conn

/-- The connection in a slot, with its log. -/
def connection (a : Ledger) (k : ℕ) : Connection := a.reg.connection k (a.log (a.conn k))

/-- The number of a connection that is in no claimed slot. -/
def Closed (a : Ledger) (c : ℕ) : Prop := ∀ k < a.reg.count, a.conn k ≠ c

/-- The connection that the next initialisation opens. -/
def opened (usl : ℕ → UslAnswer) (a : Ledger) (interfaceRef : ℕ) : Connection :=
  openConnection usl a.reg.count interfaceRef a.reg.nextConn a.reg.nextId (a.reg.inst a.reg.count)

/-- The logs after an event that leads to `s'`. -/
def nextLog (usl : ℕ → UslAnswer) (a : Ledger) (s' : Registry) : RegistryEvent → ℕ → List UslEntry
  | .init _ ref =>
    if a.reg.count < s'.count then Function.update a.log a.reg.nextConn (a.opened usl ref).log
    else a.log
  | .completion k id r =>
    Function.update a.log (a.conn k) (a.log (a.conn k) ++ completeLog usl k id r (a.reg.machine k))
  | _ => a.log

/-- Nothing is open. -/
def boot (slots : ℕ → Instance) : Ledger := ⟨.boot slots, fun _ => []⟩

end Ledger

/-- One event. -/
def ledgerStep (usl : ℕ → UslAnswer) (a : Ledger) (e : RegistryEvent) : Option Ledger :=
  (registryStep usl a.reg e).map fun s' => ⟨s', a.nextLog usl s' e⟩

/-- No two claimed slots have one interface reference. -/
def DistinctRefs (s : Registry) : Prop :=
  ∀ j < s.count, ∀ k < s.count, (s.inst j).interfaceRef = (s.inst k).interfaceRef → j = k

/-- No call is outstanding on a claimed slot. -/
def NoneOutstanding (s : Registry) : Prop := ∀ k < s.count, s.calls k = []

/-- Interfaces are finalized while no call is outstanding. -/
def RegistryEvent.FinalizeOk (s : Registry) : RegistryEvent → Prop
  | .finalize _ => DistinctRefs s ∧ NoneOutstanding s
  | _ => True

section
variable (s : Registry)

instance : Decidable (DistinctRefs s) :=
  inferInstanceAs (Decidable (∀ j < s.count, ∀ k < s.count, _))

instance : Decidable (NoneOutstanding s) := inferInstanceAs (Decidable (∀ k < s.count, _))

instance : (e : RegistryEvent) → Decidable (e.FinalizeOk s)
  | .finalize _ => inferInstanceAs (Decidable (DistinctRefs s ∧ NoneOutstanding s))
  | .init .. | .setEventCallback .. | .completion .. | .notify | .notifyStep _ => isTrue trivial

end

/-- Runs that finalize interfaces while no call is outstanding. -/
abbrev LedgerRun (usl : ℕ → UslAnswer) (slots : ℕ → Instance) : Ledger → Prop :=
  Reach (ledgerStep usl) (fun a e => e.FinalizeOk a.reg) (.boot slots)

/-- `USBMIDI9DequeueBytes`: the registry, and the bytes. -/
def dequeueBytes (s : Registry) (index max : ℕ) : Registry × List UInt8 :=
  if s.count ≤ index then (s, [])
  else
    let r := um9RingDequeue ringSize (s.inst index).ring max
    (s.updInst index fun inst => { inst with ring := r.1 }, r.2)

/-- The bytes of one dequeue after the other. -/
def dequeueAll (s : Registry) (index : ℕ) : List ℕ → List (List UInt8)
  | [] => []
  | max :: maxes =>
    (dequeueBytes s index max).2 :: dequeueAll (dequeueBytes s index max).1 index maxes

/-- The slot of a claimed instance after slot `i` was disposed of: the last one has moved
    into it. -/
def movedIndex (s : Registry) (i k : ℕ) : ℕ := if k = s.count - 1 then i else k

/-- The instance in slot `i` is gone, and no other one. -/
structure RemovesOne (s s' : Registry) (i : ℕ) : Prop where
  count : s'.count + 1 = s.count
  others : ∀ j < s.count, j ≠ i → movedIndex s i j < s'.count ∧
    s'.inst (movedIndex s i j) = s.inst j
  only : ∀ k < s'.count, ∃ j < s.count, j ≠ i ∧ movedIndex s i j = k
  gone : ∀ k < s'.count, (s'.inst k).interfaceRef ≠ (s.inst i).interfaceRef
  dequeue : ∀ j < s.count, j ≠ i → ∀ maxes,
    dequeueAll s' (movedIndex s i j) maxes = dequeueAll s j maxes

/-! ## Slots -/

section
variable {usl : ℕ → UslAnswer} {s s' : Registry} {k : ℕ}

/-- What is dequeued only depends on the instance. -/
theorem dequeueAll_congr {j k : ℕ} (hj : j < s.count) (hk : k < s'.count)
    (hinst : s'.inst k = s.inst j) (maxes : List ℕ) :
    dequeueAll s' k maxes = dequeueAll s j maxes := by
  induction maxes generalizing s s' with
  | nil => rfl
  | cons max maxes ih =>
    have hself : ∀ (t : Registry) (i : ℕ) (f : Instance → Instance),
        (t.updInst i f).inst i = f (t.inst i) := fun t i f =>
      (Registry.inst_updInst t i f i).trans (if_pos rfl)
    simp only [dequeueAll, dequeueBytes, not_le.2 hj, not_le.2 hk, if_false, hinst]
    refine congrArg (_ :: ·) (ih hj hk ?_)
    rw [hself, hself, hinst]

/-- A connection keeps its number. -/
theorem connectionStep_conn {index : ℕ} {c c' : Connection} {e : ConnectionEvent}
    (hs : connectionStep usl index c e = some c') : c'.inst.conn = c.inst.conn := by
  cases e with
  | completion id r =>
    simp only [connectionStep] at hs
    split_ifs at hs
    obtain rfl := Option.some.inj hs
    have hkept : Kept (c.machine.finish id r) (completeCall usl index id r c.machine) :=
      completionProc_kept (initiateTransaction_kept _) _ _
    exact congrArg Client.conn hkept.client
  | others n => exact Option.some.inj hs ▸ rfl
  | setEventCallback callback refcon =>
    simp only [connectionStep] at hs
    split_ifs at hs
    exact Option.some.inj hs ▸ rfl
  | notify =>
    simp only [connectionStep] at hs
    split_ifs at hs
    exact Option.some.inj hs ▸ rfl
  | notifyStep accepted =>
    simp only [connectionStep, removalStep] at hs
    split at hs
    next => cases hs
    next => exact Option.some.inj hs ▸ rfl
    next => exact Option.some.inj hs ▸ rfl
    next => split_ifs at hs <;> exact Option.some.inj hs ▸ rfl
    next => split_ifs at hs <;> exact Option.some.inj hs ▸ rfl
    next => exact Option.some.inj hs ▸ rfl
    next => exact Option.some.inj hs ▸ rfl

/-- A removal notification issues nothing. -/
theorem notifyStep_idle {accepted : Bool} (hs : notifyStep s accepted = some s')
    (hk : s.calls k = []) : s'.calls k = [] := by
  have hupd : ∀ i f, (s.updInst i f).calls k = [] := fun i f =>
    (Registry.calls_updInst s i f k).trans hk
  unfold notifyStep at hs
  split at hs
  next => cases hs
  next => cases hs
  next i busy hp =>
    split_ifs at hs
    · exact Option.some.inj hs ▸ hupd i _
    · exact Option.some.inj hs ▸ hk
  next i busy hp => exact Option.some.inj hs ▸ hupd i _
  next i busy hp => exact Option.some.inj hs ▸ hupd i _
  next => split_ifs at hs <;> exact Option.some.inj hs ▸ hk
  next i hp =>
    split_ifs at hs
    · obtain rfl := Option.some.inj hs
      by_cases hki : k = i
      · subst hki
        have hfilter : ((s.dropReads k).goto (.refused k)).calls k =
            (s.calls k).filter (·.stage ≠ kReadBulkInPipeState) := by
          simp only [Registry.calls, Registry.goto, Registry.dropReads, Function.update_self]
        rw [hfilter, hk]
        rfl
      · have hother : ((s.dropReads i).goto (.refused i)).slots k = s.slots k :=
          Function.update_of_ne hki ..
        rw [Registry.calls, hother]
        exact hk
    · exact Option.some.inj hs ▸ hk
  next => exact Option.some.inj hs ▸ hk
  next i w hp => exact Option.some.inj hs ▸ hupd i _

/-- An initialisation fails, or claims the first unclaimed slot. -/
theorem initializeInterface_claims (usl : ℕ → UslAnswer) (d : InterfaceDescriptor) (ref : ℕ) :
    (initializeInterface usl s d ref).1 = s ∨
      (initializeInterface usl s d ref).1.count = s.count + 1 ∧ s.count < maxInterfaces ∧
        (initializeInterface usl s d ref).1.nextConn = s.nextConn + 1 ∧
        ∀ k ≠ s.count, (initializeInterface usl s d ref).1.slots k = s.slots k := by
  unfold initializeInterface claimInstance
  split_ifs with hclass hpoints hfull
  · exact .inl rfl
  · exact .inl rfl
  · exact .inl rfl
  · refine .inr ⟨rfl, Nat.lt_of_not_le hfull, rfl, ?_⟩
    intro k hk
    simp only
    rw [Registry.slots_put, if_neg hk]
    exact (Registry.slots_updInst _ s.count _ k).trans (if_neg hk)

end

/-! ## The books -/

/-- **The invariant** of a ledger. -/
structure Books (a : Ledger) : Prop where
  count : a.reg.count ≤ maxInterfaces
  idle : ∀ k, a.reg.count ≤ k → a.reg.calls k = []
  fresh : ∀ k < a.reg.count, a.conn k < a.reg.nextConn
  distinct : ∀ j < a.reg.count, ∀ k < a.reg.count, a.conn j = a.conn k → j = k
  opened : ∀ k < a.reg.count, Booked (a.connection k) ∧ a.freed (a.conn k) = []
  closed : ∀ c < a.reg.nextConn, a.Closed c → a.freed c = obtained (a.log c)
  unused : ∀ c, a.reg.nextConn ≤ c → a.freed c = []

theorem Books.boot (slots : ℕ → Instance) : Books (.boot slots) where
  count := Nat.zero_le _
  idle _ _ := rfl
  fresh _ hk := absurd hk (Nat.not_lt_zero _)
  distinct _ hj := absurd hj (Nat.not_lt_zero _)
  opened _ hk := absurd hk (Nat.not_lt_zero _)
  closed _ hc := absurd hc (Nat.not_lt_zero _)
  unused _ _ := rfl

section
variable {usl : ℕ → UslAnswer} {a : Ledger} {s' : Registry} {log' : ℕ → List UslEntry}

/-- Every claimed slot stays claimed, and its connection runs. -/
theorem Books.same (h : Books a) {e : RegistryEvent} (hs : registryStep usl a.reg e = some s')
    (hkeep : ∀ k < a.reg.count, e.Keeps k a.reg) (hcount : s'.count = a.reg.count)
    (hnext : s'.nextConn = a.reg.nextConn)
    (hidle : ∀ k, a.reg.count ≤ k → s'.calls k = [])
    (hlog : ∀ k < a.reg.count, log' (a.conn k) = a.log (a.conn k) ++ e.logIn usl k a.reg)
    (hclosed : ∀ c, a.Closed c → log' c = a.log c)
    (hfreed : ∀ c, freedFor c s'.trace = a.freed c) : Books ⟨s', log'⟩ := by
  have hstep : ∀ k < a.reg.count, ∃ e', connectionStep usl k (a.connection k) e' =
      some (s'.connection k (log' (a.conn k))) := by
    intro k hk
    obtain ⟨-, e', he'⟩ := registryStep_connection hk (hkeep k hk) hs (a.log (a.conn k))
    rw [hlog k hk]
    exact ⟨e', he'⟩
  have hconn : ∀ k < a.reg.count, (s'.inst k).conn = a.conn k := by
    intro k hk
    obtain ⟨e', he'⟩ := hstep k hk
    exact connectionStep_conn he'
  have hsame : ∀ c, Ledger.Closed ⟨s', log'⟩ c → a.Closed c := by
    intro c hc k hk
    rw [← hconn k hk]
    exact hc k (hcount.symm ▸ hk)
  refine ⟨hcount.symm ▸ h.count, fun k hk => hidle k (hcount ▸ hk), ?_, ?_, ?_, ?_, ?_⟩
  · intro k hk
    show (s'.inst k).conn < s'.nextConn
    rw [hconn k (hcount ▸ hk), hnext]
    exact h.fresh k (hcount ▸ hk)
  · intro j hj k hk heq
    have heq' : (s'.inst j).conn = (s'.inst k).conn := heq
    rw [hconn j (hcount ▸ hj), hconn k (hcount ▸ hk)] at heq'
    exact h.distinct j (hcount ▸ hj) k (hcount ▸ hk) heq'
  · intro k hk
    obtain ⟨hbooked, hnone⟩ := h.opened k (hcount ▸ hk)
    obtain ⟨e', he'⟩ := hstep k (hcount ▸ hk)
    show Booked (s'.connection k (log' (s'.inst k).conn)) ∧ freedFor (s'.inst k).conn s'.trace = []
    rw [hconn k (hcount ▸ hk), hfreed]
    exact ⟨hbooked.step he', hnone⟩
  · intro c hc hcl
    show freedFor c s'.trace = obtained (log' c)
    rw [hclosed c (hsame c hcl), hfreed]
    exact h.closed c (hnext ▸ hc) (hsame c hcl)
  · intro c hc
    exact (hfreed c).trans (h.unused c (hnext ▸ hc))

theorem openConnection_conn (index interfaceRef conn nextId : ℕ) (slot : Instance) :
    (openConnection usl index interfaceRef conn nextId slot).inst.conn = conn := by
  have hkept : Kept ⟨initInstance interfaceRef conn slot, [], nextId, []⟩
      (startTransaction usl index ⟨initInstance interfaceRef conn slot, [], nextId, []⟩) :=
    initiateTransaction_kept _ _
  exact congrArg Client.conn hkept.client

/-- An interface is initialised, in the first unclaimed slot. -/
theorem Books.init (h : Books a) {d : InterfaceDescriptor} {ref : ℕ}
    (hs : registryStep usl a.reg (.init d ref) = some s') :
    Books ⟨s', a.nextLog usl s' (.init d ref)⟩ := by
  have hfreed : ∀ c, freedFor c s'.trace = a.freed c := fun c =>
    registryStep_freed (e := .init d ref) trivial hs
  have htask := hs
  simp only [registryStep] at htask
  obtain ⟨hs', -⟩ := task_connection (k := 0) htask []
  rcases initializeInterface_claims (s := a.reg.goto .idle) usl d ref with
    hfail | ⟨hcount, hlt, hnext, hslots⟩
  · -- nothing is claimed
    rw [hfail] at hs'
    have hlog : a.nextLog usl s' (.init d ref) = a.log := if_neg (by simp [hs', Registry.goto])
    rw [hlog]
    refine h.same hs (fun _ _ => trivial) (by rw [hs']; rfl) (by rw [hs']; rfl) ?_ ?_ ?_ hfreed
    · intro k hk
      rw [hs']
      exact h.idle k hk
    · intro k hk
      exact (List.append_nil _).symm
    · intro c _
      rfl
  · -- the next connection is in the first unclaimed slot
    rw [← hs'] at hcount hnext hslots
    have hcount' : s'.count = a.reg.count + 1 := hcount
    have hnext' : s'.nextConn = a.reg.nextConn + 1 := hnext
    have hclaimed : a.reg.count < s'.count := by omega
    have hlog : a.nextLog usl s' (.init d ref) =
        Function.update a.log a.reg.nextConn (a.opened usl ref).log := if_pos hclaimed
    have hopen : s'.connection a.reg.count (a.opened usl ref).log = a.opened usl ref := by
      have hlt' : a.reg.count < (initializeInterface usl (a.reg.goto .idle) d ref).1.count :=
        hs' ▸ hclaimed
      obtain ⟨L, hL⟩ := initializeInterface_open (s := a.reg.goto .idle) (h.idle _ le_rfl) rfl hlt'
      have hL' : s'.connection a.reg.count L = a.opened usl ref := hs' ▸ hL
      rw [← congrArg Connection.log hL']
      exact hL'
    have hnew : (s'.inst a.reg.count).conn = a.reg.nextConn :=
      (congrArg (fun c => c.inst.conn) hopen).trans (openConnection_conn _ _ _ _ _)
    have hold : ∀ k < a.reg.count, (s'.inst k).conn = a.conn k := fun k hk =>
      congrArg (fun slot => slot.inst.conn) (hslots k hk.ne)
    have hcases : ∀ k < s'.count, k < a.reg.count ∨ k = a.reg.count := fun k hk => by omega
    rw [hlog]
    refine ⟨hcount' ▸ hlt, ?_, ?_, ?_, ?_, ?_, ?_⟩
    · intro k hk
      have hne : k ≠ a.reg.count := ne_of_gt (hclaimed.trans_le hk)
      exact (congrArg Slot.calls (hslots k hne)).trans (h.idle k (hclaimed.trans_le hk).le)
    · intro k hk
      show (s'.inst k).conn < s'.nextConn
      rw [hnext']
      rcases hcases k hk with hk | rfl
      · rw [hold k hk]
        exact (h.fresh k hk).trans (Nat.lt_succ_self _)
      · rw [hnew]
        exact Nat.lt_succ_self _
    · intro j hj k hk heq
      have heq' : (s'.inst j).conn = (s'.inst k).conn := heq
      rcases hcases j hj with hj | rfl <;> rcases hcases k hk with hk | rfl
      · rw [hold j hj, hold k hk] at heq'
        exact h.distinct j hj k hk heq'
      · rw [hold j hj, hnew] at heq'
        exact absurd heq' (h.fresh j hj).ne
      · rw [hold k hk, hnew] at heq'
        exact absurd heq' (h.fresh k hk).ne'
      · rfl
    · intro k hk
      show Booked (s'.connection k (Function.update a.log _ _ (s'.inst k).conn)) ∧
        freedFor (s'.inst k).conn s'.trace = []
      rw [hfreed]
      rcases hcases k hk with hk | rfl
      · obtain ⟨hbooked, hnone⟩ := h.opened k hk
        obtain ⟨-, e', he'⟩ := registryStep_connection (e := .init d ref) hk trivial hs
          (a.log (a.conn k))
        rw [hold k hk, Function.update_of_ne (h.fresh k hk).ne]
        have hsame : a.log (a.conn k) ++ RegistryEvent.logIn usl k a.reg (.init d ref) =
            a.log (a.conn k) := List.append_nil _
        rw [hsame] at he'
        exact ⟨hbooked.step he', hnone⟩
      · rw [hnew, Function.update_self, hopen]
        exact ⟨.start _ _ _ _, h.unused _ le_rfl⟩
    · intro c hc hcl
      have hne : c ≠ a.reg.nextConn := fun hce => hcl a.reg.count hclaimed (hnew.trans hce.symm)
      have hlt' : c < a.reg.nextConn := by
        have hc' : c < s'.nextConn := hc
        omega
      show freedFor c s'.trace = obtained (Function.update a.log _ _ c)
      rw [Function.update_of_ne hne, hfreed]
      refine h.closed c hlt' ?_
      intro k hk
      rw [← hold k hk]
      exact hcl k (hk.trans hclaimed)
    · intro c hc
      have hc' : s'.nextConn ≤ c := hc
      exact (hfreed c).trans (h.unused c (by omega))

/-- The slots that a finalize leaves, and where their instances come from. -/
theorem disposeInstance_from {s : Registry} {i k : ℕ} (hi : i < s.count)
    (hk : k < (disposeInstance s i).count) :
    ∃ j < s.count, j ≠ i ∧ movedIndex s i j = k ∧ (disposeInstance s i).inst k = s.inst j := by
  rw [(disposeInstance_const s i).1] at hk
  rw [disposeInstance_inst hk]
  by_cases hki : k = i
  · subst hki
    refine ⟨s.count - 1, by omega, by omega, if_pos rfl, if_pos rfl⟩
  · exact ⟨k, by omega, hki, if_neg (by omega), if_neg hki⟩

/-- And where they go. -/
theorem disposeInstance_moved {s : Registry} {i j : ℕ} (hi : i < s.count) (hj : j < s.count)
    (hne : j ≠ i) : movedIndex s i j < (disposeInstance s i).count ∧
      (disposeInstance s i).inst (movedIndex s i j) = s.inst j := by
  rw [(disposeInstance_const s i).1]
  unfold movedIndex
  split_ifs with hlast
  · have hlt : i < s.count - 1 := by omega
    rw [disposeInstance_inst hlt, if_pos rfl, hlast]
    exact ⟨hlt, rfl⟩
  · have hlt : j < s.count - 1 := by omega
    rw [disposeInstance_inst hlt, if_neg hne]
    exact ⟨hlt, rfl⟩

/-- A finalize that finds its slot. -/
theorem finalize_found {ref i : ℕ} (hi : finalizeIndex a.reg ref = some i)
    (hs : registryStep usl a.reg (.finalize ref) = some s') :
    s' = disposeInstance (a.reg.goto .idle) i ∧ ∀ c, freedFor c s'.trace =
      a.freed c ++ if a.conn i = c then held (a.reg.inst i) else [] := by
  have htask : a.reg.task (finalizeProc · ref) = some s' := hs
  have hs' : s' = finalizeProc (a.reg.goto .idle) ref := (task_connection (k := 0) htask []).1
  have hi' : finalizeIndex (a.reg.goto .idle) ref = some i := hi
  rw [finalizeProc, hi'] at hs'
  exact ⟨hs', fun c => hs' ▸ freedFor_dispose (a.reg.goto .idle) i c⟩

/-- A slot is finalized. -/
theorem Books.finalize (h : Books a) {ref i : ℕ} (hd : NoneOutstanding a.reg)
    (hi : finalizeIndex a.reg ref = some i) (hs : registryStep usl a.reg (.finalize ref) = some s') :
    Books ⟨s', a.log⟩ := by
  obtain ⟨hs', hfreed'⟩ := finalize_found hi hs
  obtain ⟨hlt, -⟩ := finalizeIndex_spec hi
  obtain ⟨hcount, hid, hnext, -, hnotify⟩ := disposeInstance_const (a.reg.goto .idle) i
  rw [← hs'] at hcount hid hnext hnotify
  have hcount' : s'.count = a.reg.count - 1 := hcount
  have hnext' : s'.nextConn = a.reg.nextConn := hnext
  have hcalls : ∀ k, s'.calls k = a.reg.calls k := fun k => by
    rw [hs', disposeInstance_calls]
    rfl
  have hnone : ∀ k < a.reg.count, s'.calls k = [] := fun k hk => (hcalls k).trans (hd k hk)
  have hfrom : ∀ k < s'.count, ∃ j < a.reg.count, j ≠ i ∧ movedIndex a.reg i j = k ∧
      s'.inst k = a.reg.inst j := by
    rw [hs']
    exact fun k hk => disposeInstance_from (s := a.reg.goto .idle) hlt hk
  have hto : ∀ j < a.reg.count, j ≠ i → ∃ k < s'.count, s'.inst k = a.reg.inst j := by
    rw [hs']
    exact fun j hj hne => ⟨_, disposeInstance_moved (s := a.reg.goto .idle) hlt hj hne⟩
  have htask : a.reg.task (finalizeProc · ref) = some s' := hs
  have hconn : ∀ j < a.reg.count, ∀ k < s'.count, s'.inst k = a.reg.inst j → ∀ L,
      s'.connection k L = a.reg.connection j L := by
    intro j hj k hk hinst L
    rw [← (task_connection (k := j) htask L).2]
    have hidle : (a.reg.goto .idle).calls j = [] := hd j hj
    simp only [Registry.connection, hinst, hnone k (by omega), hid, hnotify, hidle]
    rfl
  refine ⟨hcount' ▸ (Nat.sub_le _ _).trans h.count, ?_, ?_, ?_, ?_, ?_, ?_⟩
  · intro k hk
    rcases Nat.lt_or_ge k a.reg.count with hk' | hk'
    · exact hnone k hk'
    · exact (hcalls k).trans (h.idle k hk')
  · intro k hk
    obtain ⟨j, hj, -, -, hinst⟩ := hfrom k hk
    show (s'.inst k).conn < s'.nextConn
    rw [hinst, hnext']
    exact h.fresh j hj
  · intro k hk k' hk' heq
    obtain ⟨j, hj, -, hjk, hinst⟩ := hfrom k hk
    obtain ⟨j', hj', -, hjk', hinst'⟩ := hfrom k' hk'
    have heq' : (s'.inst k).conn = (s'.inst k').conn := heq
    rw [hinst, hinst'] at heq'
    rw [← hjk, ← hjk', h.distinct j hj j' hj' heq']
  · intro k hk
    obtain ⟨j, hj, hne, -, hinst⟩ := hfrom k hk
    obtain ⟨hbooked, hfreed⟩ := h.opened j hj
    show Booked (s'.connection k (a.log (s'.inst k).conn)) ∧ freedFor (s'.inst k).conn s'.trace = []
    rw [hconn j hj k hk hinst, hinst, hfreed',
      if_neg fun heq => hne (h.distinct j hj i hlt heq.symm), List.append_nil]
    exact ⟨hbooked, hfreed⟩
  · intro c hc hcl
    show freedFor c s'.trace = obtained (a.log c)
    rw [hfreed']
    by_cases hci : c = a.conn i
    · -- the connection that is closed
      obtain ⟨hbooked, hfreed⟩ := h.opened i hlt
      rw [hci, if_pos rfl, hfreed, List.nil_append]
      exact hbooked.obtained.symm
    · rw [if_neg (Ne.symm hci), List.append_nil]
      refine h.closed c (hnext' ▸ hc) ?_
      intro j hj heq
      have hne : j ≠ i := fun hji => hci (hji ▸ heq.symm)
      obtain ⟨k, hk, hinst⟩ := hto j hj hne
      exact hcl k hk ((congrArg Instance.conn hinst).trans heq)
  · intro c hc
    have hc' : s'.nextConn ≤ c := hc
    rw [hnext'] at hc'
    show freedFor c s'.trace = []
    rw [hfreed', if_neg ((h.fresh i hlt).trans_le hc').ne, List.append_nil]
    exact h.unused c hc'

/-- **Every event** keeps the books. -/
theorem Books.step (h : Books a) {e : RegistryEvent} (hok : e.FinalizeOk a.reg) {a' : Ledger}
    (hs : ledgerStep usl a e = some a') : Books a' := by
  obtain ⟨s', hs', rfl⟩ := Option.map_eq_some_iff.1 hs
  have hlogIn : ∀ c, a.log c = a.log c ++ [] := fun c => (List.append_nil _).symm
  have hfreed : e.NoFinalize → ∀ c, freedFor c s'.trace = a.freed c := fun he _ =>
    registryStep_freed he hs'
  cases e with
  | init d ref => exact h.init hs'
  | setEventCallback index callback refcon =>
    have htask : a.reg.task (fun s => (setEventCallback s index callback refcon).1) = some s' := hs'
    obtain ⟨heq, -⟩ := task_connection (k := 0) htask []
    refine h.same hs' (fun _ _ => trivial) ?_ ?_ ?_ (fun k _ => hlogIn _) (fun c _ => rfl)
      (hfreed trivial)
    · rw [heq, setEventCallback]
      split_ifs <;> rfl
    · rw [heq, setEventCallback]
      split_ifs <;> rfl
    · intro k hk
      rw [heq, setEventCallback]
      split_ifs
      · exact h.idle k hk
      · exact (Registry.calls_updInst (a.reg.goto .idle) index _ k).trans (h.idle k hk)
  | completion k id r =>
    have hput := hs'
    simp only [registryStep] at hput
    split_ifs at hput with hid
    obtain rfl := Option.some.inj hput
    have hk : k < a.reg.count := by
      by_contra hge
      rw [h.idle k (Nat.le_of_not_lt hge)] at hid
      cases hid
    refine h.same hs' (fun _ _ => trivial) rfl rfl ?_ ?_ ?_ (hfreed trivial)
    · intro j hj
      rw [Registry.calls, Registry.slots_put, if_neg (hk.trans_le hj).ne']
      exact h.idle j hj
    · intro j hj
      by_cases hjk : k = j
      · subst hjk
        exact (Function.update_self ..).trans (congrArg (_ ++ ·) (if_pos rfl).symm)
      · have hne : a.conn j ≠ a.conn k := fun heq => hjk (h.distinct j hj k hk heq).symm
        exact (Function.update_of_ne hne ..).trans
          ((hlogIn _).trans (congrArg (_ ++ ·) (if_neg hjk).symm))
    · intro c hc
      exact Function.update_of_ne (hc k hk).symm ..
  | notify =>
    have htask : a.reg.task (·.goto (.mark 0 false)) = some s' := hs'
    obtain ⟨rfl, -⟩ := task_connection (k := 0) htask []
    exact h.same hs' (fun _ _ => trivial) rfl rfl h.idle (fun k _ => hlogIn _) (fun c _ => rfl)
      (hfreed trivial)
  | notifyStep accepted =>
    obtain ⟨hcount, hnext⟩ := notifyStep_const hs'
    exact h.same hs' (fun _ _ => trivial) hcount hnext (fun k hk => notifyStep_idle hs' (h.idle k hk))
      (fun k _ => hlogIn _) (fun c _ => rfl) (hfreed trivial)
  | finalize ref =>
    cases hi : finalizeIndex a.reg ref with
    | none =>
      have htask : a.reg.task (finalizeProc · ref) = some s' := hs'
      obtain ⟨heq, -⟩ := task_connection (k := 0) htask []
      have hi' : finalizeIndex (a.reg.goto .idle) ref = none := hi
      rw [finalizeProc, hi'] at heq
      have hkeep : ∀ k < a.reg.count, (RegistryEvent.finalize ref).Keeps k a.reg := by
        intro k _ i hfound
        rw [hi] at hfound
        cases hfound
      rw [heq]
      rw [heq] at hs'
      exact h.same hs' hkeep rfl rfl h.idle (fun k _ => hlogIn _) (fun c _ => rfl) fun c => rfl
    | some i => exact h.finalize hok.2 hi hs'

theorem LedgerRun.books {slots : ℕ → Instance} (h : LedgerRun usl slots a) : Books a :=
  Reach.inv h (.boot slots) fun _ _ _ hI hok hs => hI.step hok hs

/-- A finalize finds the only slot with its reference. -/
theorem finalizeIndex_of_distinct {s : Registry} (hd : DistinctRefs s) {i : ℕ} (hi : i < s.count) :
    finalizeIndex s (s.inst i).interfaceRef = some i := by
  cases hf : finalizeIndex s (s.inst i).interfaceRef with
  | none =>
    have hne := List.find?_eq_none.1 hf i (List.mem_range.2 hi)
    exact absurd (decide_eq_true rfl) hne
  | some k =>
    obtain ⟨hk, href⟩ := finalizeIndex_spec hf
    rw [hd k hk i hi href]

theorem finalizeIndex_none {s : Registry} {ref : ℕ}
    (h : ∀ k < s.count, (s.inst k).interfaceRef ≠ ref) : finalizeIndex s ref = none := by
  refine List.find?_eq_none.2 ?_
  intro k hk
  simpa using h k (List.mem_range.1 hk)

/-- **A slot is disposed of**, and no other one. -/
theorem disposeInstance_removes {s : Registry} (hd : DistinctRefs s) {i : ℕ} (hi : i < s.count) :
    RemovesOne s (disposeInstance s i) i := by
  have hcount := (disposeInstance_const s i).1
  refine ⟨by omega, fun j hj hne => disposeInstance_moved hi hj hne, ?_, ?_, ?_⟩
  · intro k hk
    obtain ⟨j, hj, hne, hjk, -⟩ := disposeInstance_from hi hk
    exact ⟨j, hj, hne, hjk⟩
  · intro k hk href
    obtain ⟨j, hj, hne, -, hinst⟩ := disposeInstance_from hi hk
    rw [hinst] at href
    exact hne (hd j hj i hi href)
  · intro j hj hne maxes
    obtain ⟨hlt, hinst⟩ := disposeInstance_moved hi hj hne
    exact dequeueAll_congr hj hlt hinst maxes

end

/-! ## The result -/

/-- **Finalize removes exactly one connection.**  After any events of which the finalizes
    find no call outstanding: a finalize removes the instance with its reference, if there
    is one, and leaves the others, under their new indices, as they are; each block that a
    connection obtained is passed to `USBDeallocMem` once, when the connection is finalized;
    at most eight slots are claimed, and an initialisation that finds them all claimed
    fails and changes nothing. -/
theorem finalize_one {usl : ℕ → UslAnswer} {slots : ℕ → Instance} {a : Ledger}
    (h : LedgerRun usl slots a) :
    (∀ ref, DistinctRefs a.reg → NoneOutstanding a.reg →
      ((∀ k < a.reg.count, (a.reg.inst k).interfaceRef ≠ ref) → finalizeProc a.reg ref = a.reg) ∧
      ∀ i < a.reg.count, (a.reg.inst i).interfaceRef = ref →
        RemovesOne a.reg (finalizeProc a.reg ref) i ∧
        ∀ a', ledgerStep usl a (.finalize ref) = some a' → a'.log = a.log ∧
          a'.freed = Function.update a.freed (a.conn i) (obtained (a.log (a.conn i)))) ∧
      (∀ k < a.reg.count, a.freed (a.conn k) = []) ∧
      (∀ c < a.reg.nextConn, a.Closed c → a.freed c = obtained (a.log c)) ∧
      a.reg.count ≤ maxInterfaces ∧
      ∀ d ref, maxInterfaces ≤ a.reg.count →
        initializeInterface usl a.reg d ref = (a.reg, usbInternalErr) := by
  have hbooks := h.books
  refine ⟨?_, fun k hk => (hbooks.opened k hk).2, hbooks.closed, hbooks.count, ?_⟩
  · intro ref hd _
    refine ⟨?_, ?_⟩
    · intro hnone
      rw [finalizeProc, finalizeIndex_none hnone]
    · rintro i hi rfl
      have hfound := finalizeIndex_of_distinct hd hi
      refine ⟨?_, ?_⟩
      · rw [finalizeProc, hfound]
        exact disposeInstance_removes hd hi
      · intro a' hs
        obtain ⟨s', hs', rfl⟩ := Option.map_eq_some_iff.1 hs
        obtain ⟨hbooked, hfreed⟩ := hbooks.opened i hi
        refine ⟨rfl, funext fun c => ((finalize_found hfound hs').2 c).trans ?_⟩
        by_cases hci : c = a.conn i
        · rw [hci, if_pos rfl, Function.update_self, hfreed, List.nil_append]
          exact hbooked.obtained.symm
        · rw [if_neg (Ne.symm hci), Function.update_of_ne hci, List.append_nil]
  · intro d ref hfull
    unfold initializeInterface claimInstance
    rw [if_pos hfull]
    split_ifs <;> rfl

/-- A failed call. -/
def errorResult : UslResult := ⟨usbAbortedError, 0, 0, 0, [], fun _ => 0⟩

/-- Two interfaces: the first stops after its first block, the second reads and stops. -/
def twoStopped : List RegistryEvent :=
  [.init midiStreaming 10, .init midiStreaming 11, .completion 0 0 (okResult 0 []),
    .completion 1 1 ⟨usbNoErr, 0x2000, 0, 0, [], fun _ => 0⟩, .completion 0 2 errorResult,
    .completion 1 3 (okResult 0 []), .completion 1 4 (okResult 7 []),
    .completion 1 5 ⟨usbNoErr, 0x3000, 0, 0, [], fun _ => 0⟩,
    .completion 1 6 (okResult 0 [9, 0x90, 0x30, 0x50]), .completion 1 7 errorResult]

/-- The first interface is finalized: its block is deallocated, and the bytes of the second
    are dequeued from slot 0. -/
theorem finalize_one_moved : ∃ a, LedgerRun pendingUsl (fun _ => default) a ∧
    RemovesOne a.reg (finalizeProc a.reg 10) 0 ∧
    dequeueAll (finalizeProc a.reg 10) 0 [3, 3] = [[9, 0x90, 0x30], [0x50]] ∧
    ∃ a', ledgerStep pendingUsl a (.finalize 10) = some a' ∧ a'.freed 0 = [0x1000] ∧
      a'.freed 1 = [] ∧ obtained (a'.log 1) = [0x2000, 0x3000] := by
  have hrun : (runEvents (ledgerStep pendingUsl) (.boot fun _ => default) twoStopped).map
      (fun a => decide ((a.reg.count = 2 ∧ DistinctRefs a.reg ∧ NoneOutstanding a.reg ∧ a.conn 0 = 0 ∧
        (a.reg.inst 0).interfaceRef = 10) ∧ obtained (a.log 0) = [0x1000] ∧ a.freed 1 = [] ∧
        obtained (a.log 1) = [0x2000, 0x3000] ∧
        dequeueAll a.reg 1 [3, 3] = [[9, 0x90, 0x30], [0x50]])) = some true := by decide +kernel
  obtain ⟨a, ha, hdec⟩ := Option.map_eq_some_iff.1 hrun
  obtain ⟨⟨hcount, hd, hnone, hconn, href⟩, h0, hfreed, h1, hbytes⟩ := of_decide_eq_true hdec
  have hreach : LedgerRun pendingUsl (fun _ => default) a := .of_run (by decide +kernel) ha
  have hnext : ((runEvents (ledgerStep pendingUsl) (.boot fun _ => default) twoStopped).bind
      (ledgerStep pendingUsl · (.finalize 10))).isSome = true := by decide +kernel
  rw [ha] at hnext
  obtain ⟨a', ha'⟩ := Option.isSome_iff_exists.1 hnext
  obtain ⟨hremoves, hledger⟩ := ((finalize_one hreach).1 10 hd hnone).2 0 (by omega) href
  obtain ⟨hlog, hdone⟩ := hledger a' ha'
  refine ⟨a, hreach, hremoves, ?_, a', ha', ?_, ?_, ?_⟩
  · have hmoved := hremoves.dequeue 1 (by omega) (by decide) [3, 3]
    rw [show movedIndex a.reg 0 1 = 0 by rw [movedIndex, hcount]; rfl] at hmoved
    exact hmoved.trans hbytes
  · rw [hdone, hconn, Function.update_self, h0]
  · rw [hdone, hconn]
    exact hfreed
  · rw [hlog, h1]

end Usbmidi9
