/-
  USBMIDI9 — event callbacks and interface connections.

  `hookOf` reads a connection's hook off the trace: what was last stored for it
  since it was initialised, if nothing has cleared it.  `issuedFor` tells for which
  connection a call was issued.  `HookInv` says that every slot that is claimed, or has
  a call outstanding, holds the hook of its own connection, which no other such slot
  has, and that its calls were issued for that connection.

  `hooks_fresh` is the result.  `InitializeInterfaceProc` leaves the hook fields and
  the calls of the slot as they are, so it needs that the slot has neither, and that no
  instance moves away from its outstanding call, or over another one; `hook_stale` is a
  run where a client hooks an interface again between its notification and its finalize.
-/
import Usbmidi9.Classic.Removal
import Usbmidi9.Lib.Trace

namespace Usbmidi9

/-! ## The hook of a connection -/

/-- What an entry does to the hook of a connection. -/
def hookAfter (conn : ℕ) (hook : Option Hook) : Entry → Option Hook
  | .init c | .clearHook c => if c = conn then none else hook
  | .setHook c new => if c = conn then new else hook
  | _ => hook

/-- The hook of a connection after a trace. -/
def hookOf (conn : ℕ) (trace : List Entry) : Option Hook := trace.foldl (hookAfter conn) none

/-- The connection that call `id` was issued for. -/
def issuedFor (id : ℕ) (trace : List Entry) : Option ℕ :=
  trace.findSome? fun
    | .issue id' conn _ _ => if id' = id then some conn else none
    | _ => none

/-- A callback is the current hook of the connection whose read has completed. -/
def Entry.Hooked (before : List Entry) : Entry → Prop
  | .callback id hook _ => ∃ conn, issuedFor id before = some conn ∧ hookOf conn before = some hook
  | _ => True

theorem hookOf_concat (conn : ℕ) (trace : List Entry) (e : Entry) :
    hookOf conn (trace ++ [e]) = hookAfter conn (hookOf conn trace) e := by
  rw [hookOf, List.foldl_append]; rfl

/-- An entry that changes no hook. -/
def Entry.HookFree (e : Entry) : Prop := ∀ conn hook, hookAfter conn hook e = hook

theorem Entry.Own.hookFree {inst : Instance} {e : Entry} (he : e.Own inst) : e.HookFree := by
  intro conn hook
  cases e with
  | issue | complete | callback | clearStall | touch | dealloc => rfl
  | init | setHook | clearHook => exact (he.elim id id).elim

/-- An entry that disposing of an instance writes. -/
def Entry.IsDispose : Entry → Prop
  | .dealloc .. | .touch .. => True
  | _ => False

theorem Entry.IsDispose.hookFree {e : Entry} (he : e.IsDispose) : e.HookFree := by
  intro conn hook
  cases e with
  | dealloc | touch => rfl
  | _ => exact he.elim

theorem hookOf_free {es : List Entry} (h : ∀ e ∈ es, e.HookFree) (conn : ℕ)
    (trace : List Entry) : hookOf conn (trace ++ es) = hookOf conn trace := by
  induction es using List.reverseRecOn with
  | nil => rw [List.append_nil]
  | append_singleton es e ih =>
    rw [← List.append_assoc, hookOf_concat, h e (by simp)]
    exact ih fun e' he => h e' (List.mem_append_left _ he)

theorem issuedFor_append {id conn : ℕ} {trace : List Entry} (h : issuedFor id trace = some conn)
    (es : List Entry) : issuedFor id (trace ++ es) = some conn := by
  unfold issuedFor at h ⊢
  rw [List.findSome?_append, h]
  rfl

/-- A call that was not issued before. -/
theorem issuedFor_issue {id conn n : ℕ} {stage : UInt32} {trace : List Entry}
    (h : ∀ conn stage n, .issue id conn stage n ∉ trace) :
    issuedFor id (trace ++ [.issue id conn stage n]) = some conn := by
  have hnone : issuedFor id trace = none := by
    refine List.findSome?_eq_none_iff.2 fun e he => ?_
    cases e with
    | issue id' conn' stage' n' =>
      refine if_neg ?_
      rintro rfl
      exact h _ _ _ he
    | _ => rfl
  unfold issuedFor at hnone ⊢
  rw [List.findSome?_append, hnone]
  simp

/-! ## The calls of a machine -/

/-- A call that was issued for the machine's connection, as `before` and its trace tell. -/
def Machine.Knows (before : List Entry) (m : Machine) (id : ℕ) : Prop :=
  issuedFor id (before ++ m.trace) = some m.inst.conn

/-- A callback is made by a call of the connection. -/
def Entry.Served (conn : ℕ) (before : List Entry) : Entry → Prop
  | .callback id _ _ => issuedFor id before = some conn
  | _ => True

/-- A machine that serves its own connection: its calls, and those that made its
    callbacks, were issued for it. -/
structure Serves (before : List Entry) (m : Machine) : Prop where
  calls : ∀ c ∈ m.calls, m.Knows before c.id
  fresh : ∀ id conn stage n, .issue id conn stage n ∈ before ++ m.trace → id < m.nextId
  callbacks : Each (fun pre e => e.Served m.inst.conn (before ++ pre)) m.trace

/-- An entry that the completion of call `id` writes. -/
def Entry.OfCompletion (id : ℕ) : Entry → Prop
  | .complete id' | .callback id' _ _ => id' = id
  | .clearStall _ => True
  | _ => False

theorem readCompleted_trace (index id : ℕ) (m : Machine) :
    ∃ new, (readCompleted index id m).trace = m.trace ++ new ∧ ∀ e ∈ new, e.OfCompletion id := by
  unfold readCompleted
  simp only
  split_ifs with hstall hok hok
  · exact absurd (hok.1.symm.trans hstall) (by decide)
  · exact ⟨[_], rfl, by simp [Entry.OfCompletion]⟩
  · split
    · exact ⟨[.callback id _ index], rfl, by simp [Entry.OfCompletion]⟩
    · exact ⟨[], (List.append_nil _).symm, nofun⟩
  · exact ⟨[], (List.append_nil _).symm, nofun⟩

/-- The completion of a call up to its last statement. -/
theorem stageDone_trace (index id : ℕ) (m : Machine) :
    ∃ new, (stageDone index id m).trace = m.trace ++ new ∧ ∀ e ∈ new, e.OfCompletion id := by
  have hstage : ∃ new, (completionStage index id (m.log (.complete id))).trace =
      (m.log (.complete id)).trace ++ new ∧ ∀ e ∈ new, e.OfCompletion id := by
    unfold completionStage
    simp only
    split_ifs
    · exact ⟨[], (List.append_nil _).symm, nofun⟩
    · exact ⟨[], (List.append_nil _).symm, nofun⟩
    · exact ⟨[], (List.append_nil _).symm, nofun⟩
    · exact ⟨[], (List.append_nil _).symm, nofun⟩
    · exact readCompleted_trace index id _
    · exact ⟨[], (List.append_nil _).symm, nofun⟩
  obtain ⟨new, hnew, hof⟩ := hstage
  refine ⟨.complete id :: new, hnew.trans (List.append_assoc ..), ?_⟩
  exact List.forall_mem_cons.2 ⟨rfl, hof⟩

section
variable {before : List Entry} {m m' : Machine} {id : ℕ}

theorem Machine.Knows.kept (h : m.Knows before id) (hk : Kept m m') : m'.Knows before id := by
  obtain ⟨new, hnew, -⟩ := hk.trace
  have hconn : m'.inst.conn = m.inst.conn := congrArg Client.conn hk.client
  rw [Machine.Knows, hnew, hconn, ← List.append_assoc]
  exact issuedFor_append h new

namespace Serves

/-- The completion of a call that the machine knows writes its entries. -/
theorem grow (h : Serves before m) {new : List Entry} (hnew : m'.trace = m.trace ++ new)
    (hconn : m'.inst.conn = m.inst.conn) (hcalls : ∀ c ∈ m'.calls, c ∈ m.calls)
    (hid : m'.nextId = m.nextId) (hknows : m.Knows before id)
    (hof : ∀ e ∈ new, e.OfCompletion id) : Serves before m' := by
  refine ⟨?_, ?_, ?_⟩
  · intro c hc
    rw [Machine.Knows, hnew, hconn, ← List.append_assoc]
    exact issuedFor_append (h.calls c (hcalls c hc)) new
  · intro id' conn stage n hissue
    rw [hnew, ← List.append_assoc] at hissue
    rw [hid]
    rcases List.mem_append.1 hissue with hissue | hissue
    · exact h.fresh _ _ _ _ hissue
    · exact (hof _ hissue).elim
  · rw [hnew, hconn]
    refine h.callbacks.append (.of_mem fun pre e _ he => ?_)
    cases e with
    | callback id' hook index =>
      obtain rfl : id' = id := hof _ he
      rw [Entry.Served, ← List.append_assoc]
      exact issuedFor_append hknows pre
    | _ => trivial

/-- A machine that writes nothing. -/
theorem same (h : Serves before m) (htrace : m'.trace = m.trace)
    (hconn : m'.inst.conn = m.inst.conn) (hcalls : ∀ c ∈ m'.calls, c ∈ m.calls)
    (hid : m'.nextId = m.nextId) : Serves before m' := by
  refine ⟨?_, ?_, ?_⟩
  · intro c hc
    rw [Machine.Knows, htrace, hconn]
    exact h.calls c (hcalls c hc)
  · rw [htrace, hid]
    exact h.fresh
  · rw [htrace, hconn]
    exact h.callbacks

theorem finish (h : Serves before m) (id : ℕ) (r : UslResult) : Serves before (m.finish id r) :=
  h.same rfl rfl (fun _ hc => List.mem_of_mem_filter hc) rfl

theorem setRefcon (h : Serves before m) (w : UInt32) : Serves before (m.setRefcon w) :=
  h.same rfl rfl (fun _ hc => hc) rfl

/-- **A call** is issued for the machine's connection. -/
theorem issue (h : Serves before m) (stage : UInt32) :
    Serves before (m.issue stage) ∧ (m.issue stage).Knows before m.nextId := by
  have htrace : (m.issue stage).trace =
      m.trace ++ [.issue m.nextId m.inst.conn stage m.calls.length] := rfl
  have hnew : (m.issue stage).Knows before m.nextId := by
    rw [Machine.Knows, htrace, ← List.append_assoc]
    exact issuedFor_issue fun conn stage n hissue => (h.fresh _ _ _ _ hissue).false
  refine ⟨⟨?_, ?_, ?_⟩, hnew⟩
  · intro c hc
    rcases List.mem_cons.1 hc with rfl | hc
    · exact hnew
    · rw [Machine.Knows, htrace, ← List.append_assoc]
      exact issuedFor_append (h.calls c hc) _
  · intro id conn stage' n hissue
    rw [htrace, ← List.append_assoc] at hissue
    rcases List.mem_append.1 hissue with hissue | hissue
    · exact (h.fresh _ _ _ _ hissue).trans (Nat.lt_succ_self _)
    · cases List.mem_singleton.1 hissue
      exact Nat.lt_succ_self _
  · rw [htrace]
    exact h.callbacks.concat trivial

variable {usl : ℕ → UslAnswer} {index : ℕ} {initiate : Machine → Machine}

theorem completionProc (hinit : ∀ m, Serves before m → Serves before (initiate m))
    (h : Serves before m) (hknows : m.Knows before id) :
    Serves before (completionProc initiate index id m) := by
  have hq := stageDone_quiet index id m
  obtain ⟨new, hnew, hof⟩ := stageDone_trace index id m
  have hdone : Serves before (stageDone index id m) :=
    h.grow hnew (congrArg Client.conn hq.client) (fun c hc => hq.calls ▸ hc) hq.nextId hknows hof
  unfold Usbmidi9.completionProc
  simp only
  split_ifs
  · exact hinit _ hdone
  · exact hdone

theorem callUsl (hinit : ∀ m, Serves before m → Serves before (initiate m))
    (h : Serves before m) (hknows : m.Knows before id) :
    Serves before (callUsl usl index initiate id m).1 := by
  unfold Usbmidi9.callUsl
  split
  · exact h
  · exact (h.finish id _).completionProc hinit hknows
  · exact h.finish id _
  · exact h.same rfl rfl (fun _ hc => List.mem_of_mem_filter hc) rfl

theorem callReturned (hinit : ∀ m, Serves before m → Serves before (initiate m))
    (h : Serves before m) (hknows : m.Knows before id) (token : UInt32) (err : ℤ) :
    Serves before (callReturned index initiate id token m err) := by
  unfold Usbmidi9.callReturned
  split_ifs
  · exact h
  · exact h
  · exact completionProc hinit (h.same rfl rfl (fun _ hc => hc) rfl) hknows
  · exact h
  · exact h.setRefcon _

theorem leave (h : Serves before m) : Serves before m.leave :=
  h.same rfl rfl (fun _ hc => hc) rfl

/-- A call from its issue to what follows its return. -/
theorem called (hinit : ∀ m, Serves before m → Serves before (initiate m))
    (hkept : ∀ m, Kept m (initiate m)) (h : Serves before m) (hknows : m.Knows before id)
    (token : UInt32) : Serves before (Usbmidi9.callReturned index initiate id token
      (Usbmidi9.callUsl usl index initiate id m).1 (Usbmidi9.callUsl usl index initiate id m).2) :=
  (h.callUsl hinit hknows).callReturned hinit (hknows.kept (callUsl_kept hkept id m)) token _

/-- **Every transaction** serves the machine's connection. -/
theorem initiateTransaction (fuel : ℕ) (h : Serves before m) :
    Serves before (initiateTransaction usl index fuel m) := by
  induction fuel generalizing m with
  | zero => exact h
  | succ fuel ih =>
    have hinit : ∀ m, Serves before m →
        Serves before (Usbmidi9.initiateTransaction usl index fuel m) := fun _ hm => ih hm
    have htoken : Serves before m.enter.takeToken := h.same rfl rfl (fun _ hc => hc) rfl
    unfold Usbmidi9.initiateTransaction
    simp only
    split_ifs
    · exact h.setRefcon _
    · exact h.same rfl rfl (fun _ hc => hc) rfl
    split
    · exact htoken.same rfl rfl (fun _ hc => hc) rfl
    next pb _ =>
      have hpb : Serves before (m.enter.takeToken.updPB fun _ => pb) :=
        htoken.same rfl rfl (fun _ hc => hc) rfl
      obtain ⟨hissue, hknows⟩ := hpb.issue (m.enter.refcon &&& kStageMask)
      refine leave ?_
      exact hissue.called hinit (initiateTransaction_kept fuel) hknows _

end Serves

end

/-! ## Conditions -/

/-- What the driver supports. -/
def InterfaceDescriptor.Supported (d : InterfaceDescriptor) : Prop :=
  d.interfaceClass = usbmidiInterfaceClass ∧ d.interfaceSubClass = usbmidiInterfaceSubClass ∧
    1 ≤ d.numEndpoints

instance (d : InterfaceDescriptor) : Decidable d.Supported :=
  inferInstanceAs (Decidable (_ ∧ _ ∧ _))

/-- The condition on the events of a run: a slot that is claimed has no hook and no call
    outstanding, and so has neither the slot that moves nor the one it moves into. -/
def RegistryEvent.HookOk (s : Registry) : RegistryEvent → Prop
  | .init d _ => d.Supported → s.count < maxInterfaces →
      (s.inst s.count).eventCallback = none ∧ s.calls s.count = []
  | .finalize ref => ∀ i ∈ finalizeIndex s ref, i < s.count - 1 →
      s.calls i = [] ∧ s.calls (s.count - 1) = []
  | _ => True

instance (s : Registry) : (e : RegistryEvent) → Decidable (e.HookOk s)
  | .init d _ =>
    inferInstanceAs (Decidable (d.Supported → s.count < maxInterfaces → _ ∧ _))
  | .finalize ref => inferInstanceAs (Decidable (∀ i ∈ finalizeIndex s ref, _))
  | .setEventCallback .. | .completion .. | .notify | .notifyStep _ => isTrue trivial

/-! ## The invariant -/

/-- A slot that may call its hook. -/
def Registry.Live (s : Registry) (k : ℕ) : Prop := k < s.count ∨ s.calls k ≠ []

/-- **The invariant** of the hooks. -/
structure HookInv (s : Registry) : Prop where
  hook : ∀ k, s.Live k → (s.inst k).hook = hookOf (s.inst k).conn s.trace
  conn : ∀ k, s.Live k → (s.inst k).conn < s.nextConn
  inj : ∀ k j, s.Live k → s.Live j → (s.inst k).conn = (s.inst j).conn → k = j
  issued : ∀ k, ∀ c ∈ s.calls k, issuedFor c.id s.trace = some (s.inst k).conn
  fresh : ∀ id conn stage n, .issue id conn stage n ∈ s.trace → id < s.nextId
  hooked : Each Entry.Hooked s.trace

/-- What the notification knows of the slot it is at. -/
def NotifyPhase.HookOk (s : Registry) : NotifyPhase → Prop
  | .unhook i _ => i < s.count
  | .unref i _ => (s.inst i).eventCallback = none
  | _ => True

namespace HookInv
variable {s s' : Registry}

/-- Every live slot has the hook and the connection that slot `src k` had, and no call
    unless it is that slot. -/
theorem moved (h : HookInv s) (src : ℕ → ℕ) (hlive : ∀ k, s'.Live k → s.Live (src k))
    (hinj : ∀ k j, s'.Live k → s'.Live j → src k = src j → k = j)
    (hhook : ∀ k, (s'.inst k).hook = (s.inst (src k)).hook)
    (hconn : ∀ k, (s'.inst k).conn = (s.inst (src k)).conn)
    (hcalls : ∀ k, ∀ c ∈ s'.calls k, c ∈ s.calls k ∧ src k = k)
    (hnext : s'.nextConn = s.nextConn) (hid : s'.nextId = s.nextId)
    (htrace : ∃ new, s'.trace = s.trace ++ new ∧ ∀ e ∈ new, e.IsDispose) : HookInv s' := by
  obtain ⟨new, hnew, hdispose⟩ := htrace
  have hfree : ∀ e ∈ new, e.HookFree := fun e he => (hdispose e he).hookFree
  refine ⟨?_, ?_, ?_, ?_, ?_, ?_⟩
  · intro k hk
    rw [hhook, hconn, hnew, hookOf_free hfree]; exact h.hook _ (hlive k hk)
  · intro k hk
    rw [hconn, hnext]; exact h.conn _ (hlive k hk)
  · intro k j hk hj hkj
    rw [hconn, hconn] at hkj
    exact hinj k j hk hj (h.inj _ _ (hlive k hk) (hlive j hj) hkj)
  · intro k c hc
    obtain ⟨hc, hsrc⟩ := hcalls k c hc
    rw [hconn, hsrc, hnew]
    exact issuedFor_append (h.issued k c hc) new
  · intro id conn stage n hissue
    rw [hnew] at hissue
    rw [hid]
    rcases List.mem_append.1 hissue with hissue | hissue
    · exact h.fresh _ _ _ _ hissue
    · exact (hdispose _ hissue).elim
  · rw [hnew]
    refine h.hooked.append (.of_mem fun pre e _ he => ?_)
    have hd := hdispose e he
    cases e with
    | callback => exact hd.elim
    | _ => trivial

/-- Slots that kept their hooks and connections, where fewer may be live. -/
theorem same (h : HookInv s) (hlive : ∀ k, s'.Live k → s.Live k)
    (hhook : ∀ k, (s'.inst k).hook = (s.inst k).hook)
    (hconn : ∀ k, (s'.inst k).conn = (s.inst k).conn)
    (hcalls : ∀ k, ∀ c ∈ s'.calls k, c ∈ s.calls k) (hnext : s'.nextConn = s.nextConn)
    (hid : s'.nextId = s.nextId) (htrace : s'.trace = s.trace) : HookInv s' :=
  h.moved (fun k => k) hlive (fun _ _ _ _ hkj => hkj) hhook hconn
    (fun k c hc => ⟨hcalls k c hc, rfl⟩) hnext hid ⟨[], by rw [htrace, List.append_nil], nofun⟩

/-- A store that leaves the hook and the connection. -/
theorem store (h : HookInv s) {f : Instance → Instance} {k : ℕ}
    (hhook : (f (s.inst k)).hook = (s.inst k).hook)
    (hconn : (f (s.inst k)).conn = (s.inst k).conn) : HookInv (s.updInst k f) := by
  have hlive : ∀ j, (s.updInst k f).Live j → s.Live j := fun j hj => by
    rwa [Registry.Live, Registry.calls_updInst] at hj
  have hcalls : ∀ j, ∀ c ∈ (s.updInst k f).calls j, c ∈ s.calls j := fun j c hc => by
    rwa [Registry.calls_updInst] at hc
  refine h.same hlive (fun j => ?_) (fun j => ?_) hcalls rfl rfl rfl
  all_goals
    rw [Registry.inst_updInst]
    split_ifs with hj
  · rw [hhook, hj]
  · rfl
  · rw [hconn, hj]
  · rfl

theorem goto (h : HookInv s) (p : NotifyPhase) : HookInv (s.goto p) :=
  ⟨h.hook, h.conn, h.inj, h.issued, h.fresh, h.hooked⟩

/-- **A store of a live slot's hook**, and the entry that tells of it. -/
theorem setHook (h : HookInv s) {k : ℕ} (hk : s.Live k) {f : Instance → Instance} {e : Entry}
    (hconn : ∀ inst, (f inst).conn = inst.conn) (hooked : e.Hooked s.trace)
    (hissue : ∀ id conn stage n, e ≠ .issue id conn stage n)
    (hsame : ∀ conn hook, conn ≠ (s.inst k).conn → hookAfter conn hook e = hook)
    (hnew : ∀ hook, hookAfter (s.inst k).conn hook e = (f (s.inst k)).hook) :
    HookInv ((s.updInst k f).log e) := by
  have hlive : ∀ j, ((s.updInst k f).log e).Live j → s.Live j := fun j hj => by
    have hc : ((s.updInst k f).log e).calls j = s.calls j := Registry.calls_updInst s k f j
    rwa [Registry.Live, hc] at hj
  have ht : ((s.updInst k f).log e).trace = s.trace ++ [e] := rfl
  have hinst : ∀ j, ((s.updInst k f).log e).inst j = if j = k then f (s.inst k) else s.inst j :=
    Registry.inst_updInst s k f
  have hc : ∀ j, (((s.updInst k f).log e).inst j).conn = (s.inst j).conn := fun j => by
    rw [hinst]
    split_ifs with hj
    · rw [hconn, hj]
    · rfl
  refine ⟨?_, ?_, ?_, ?_, ?_, h.hooked.concat hooked⟩
  · intro j hj
    rw [hc, ht, hookOf_concat, hinst]
    split_ifs with hjk
    · rw [hjk, hnew]
    · rw [hsame _ _ fun heq => hjk (h.inj j k (hlive j hj) hk heq)]
      exact h.hook j (hlive j hj)
  · intro j hj
    rw [hc]; exact h.conn j (hlive j hj)
  · intro j i hj hi hji
    rw [hc, hc] at hji; exact h.inj j i (hlive j hj) (hlive i hi) hji
  · intro j c hcj
    have hcall : c ∈ s.calls j := Registry.calls_updInst s k f j ▸ hcj
    rw [hc, ht]
    exact issuedFor_append (h.issued j c hcall) _
  · intro id conn stage n hmem
    rcases List.mem_append.1 hmem with hmem | hmem
    · exact h.fresh _ _ _ _ hmem
    · exact absurd (List.mem_singleton.1 hmem).symm (hissue _ _ _ _)

theorem dropReads (h : HookInv s) (i : ℕ) : HookInv (s.dropReads i) := by
  have hcalls : ∀ j, ∀ c ∈ (s.dropReads i).calls j, c ∈ s.calls j := by
    intro j c hc
    by_cases hji : j = i
    · subst hji
      simp only [Registry.calls, Registry.dropReads, Function.update_self] at hc
      exact List.mem_of_mem_filter hc
    · rwa [Registry.calls, show (s.dropReads i).slots j = s.slots j from
        Function.update_of_ne hji ..] at hc
  have hlive : ∀ j, (s.dropReads i).Live j → s.Live j := by
    intro j hj
    refine hj.imp_right fun hne => ?_
    obtain ⟨c, hc⟩ := List.exists_mem_of_ne_nil _ hne
    exact List.ne_nil_of_mem (hcalls j c hc)
  exact h.same hlive (fun j => congrArg Instance.hook (s.inst_dropReads i j))
    (fun j => congrArg Instance.conn (s.inst_dropReads i j)) hcalls rfl rfl rfl

/-- A slot's machine was given its calls for its connection. -/
theorem serves (h : HookInv s) (k : ℕ) : Serves s.trace (s.machine k) := by
  refine ⟨?_, ?_, Each.nil⟩
  · intro c hc
    rw [Machine.Knows, Registry.machine, List.append_nil]
    exact h.issued k c hc
  · rw [Registry.machine, List.append_nil]
    exact h.fresh

/-- **A live slot's machine ran.** -/
theorem put (h : HookInv s) {k : ℕ} (hk : s.Live k) {m : Machine} (hkept : Kept (s.machine k) m)
    (hserves : Serves s.trace m) : HookInv (s.put k m) := by
  obtain ⟨new, hnew, hown⟩ := hkept.trace
  have hnew' : m.trace = new := by rw [hnew]; rfl
  have htrace : (s.put k m).trace = s.trace ++ new := congrArg (s.trace ++ ·) hnew'
  have hlive : ∀ j, (s.put k m).Live j → s.Live j := fun j hj => by
    by_cases hjk : j = k
    · exact hjk ▸ hk
    · rwa [Registry.Live, Registry.calls, Registry.slots_put, if_neg hjk] at hj
  have hclient : ∀ j, ((s.put k m).inst j).client = (s.inst j).client := fun j => by
    by_cases hjk : j = k
    · subst hjk; rw [Registry.inst_put_self]; exact hkept.client
    · rw [Registry.inst, Registry.slots_put, if_neg hjk]
  have hconn : ∀ j, ((s.put k m).inst j).conn = (s.inst j).conn := fun j =>
    congrArg Client.conn (hclient j)
  have hself : m.inst.conn = (s.inst k).conn := congrArg Client.conn hkept.client
  refine ⟨?_, ?_, ?_, ?_, ?_, ?_⟩
  · intro j hj
    rw [Instance.hook_eq (hclient j), hconn, htrace, hookOf_free fun e he => (hown e he).hookFree]
    exact h.hook j (hlive j hj)
  · intro j hj
    rw [hconn]; exact h.conn j (hlive j hj)
  · intro j i hj hi hji
    rw [hconn, hconn] at hji; exact h.inj j i (hlive j hj) (hlive i hi) hji
  · intro j c hc
    rw [hconn]
    by_cases hjk : j = k
    · subst hjk
      rw [Registry.calls_put_self] at hc
      exact (hserves.calls c hc).trans (congrArg some hself)
    · rw [Registry.calls, Registry.slots_put, if_neg hjk] at hc
      rw [htrace]
      exact issuedFor_append (h.issued j c hc) new
  · exact hserves.fresh
  · have hcallbacks := hserves.callbacks
    rw [hnew', hself] at hcallbacks
    rw [htrace]
    refine h.hooked.append (hcallbacks.imp fun pre e hpre he hserved => ?_)
    cases e with
    | callback id hook index =>
      have hhook : (s.inst k).hook = some hook := (hown _ he).elim False.elim fun hside => hside
      refine ⟨_, hserved, ?_⟩
      rw [hookOf_free fun e he => (hown e (hpre e he)).hookFree, ← hhook]
      exact (h.hook k hk).symm
    | _ => trivial

/-- **A slot without a hook and without a call is connected.** -/
theorem connect (h : HookInv s) (ref : ℕ) (hc : (s.inst s.count).eventCallback = none)
    (hnocalls : s.calls s.count = []) :
    HookInv (Registry.connect { s with count := s.count + 1 } s.count ref) := by
  generalize ht : Registry.connect { s with count := s.count + 1 } s.count ref = t
  have hinst : ∀ j, t.inst j =
      if j = s.count then initInstance ref s.nextConn (s.inst s.count) else s.inst j := by
    subst ht
    exact Registry.inst_updInst _ s.count _
  have hcalls : ∀ j, t.calls j = s.calls j := by
    subst ht
    exact Registry.calls_updInst _ s.count _
  have hlive : ∀ j, t.Live j → j ≠ s.count → s.Live j := by
    intro j hj hne
    rcases hj with hj | hj
    · have hcount : t.count = s.count + 1 := by subst ht; rfl
      exact .inl (by omega)
    · exact .inr ((hcalls j).symm.trans_ne hj)
  have htrace : t.trace = s.trace ++ [.init s.nextConn] := by subst ht; rfl
  have hnext : t.nextConn = s.nextConn + 1 := by subst ht; rfl
  have hid : t.nextId = s.nextId := by subst ht; rfl
  have hnew : (t.inst s.count).conn = s.nextConn := by rw [hinst, if_pos rfl]; rfl
  have hold : ∀ j, t.Live j → j ≠ s.count → (t.inst j).conn < s.nextConn := fun j hj hne => by
    rw [hinst, if_neg hne]; exact h.conn j (hlive j hj hne)
  refine ⟨?_, ?_, ?_, ?_, ?_, ?_⟩
  · intro j hj
    rw [htrace, hookOf_concat]
    by_cases hjk : j = s.count
    · rw [hjk, hnew, hinst, if_pos rfl]
      have hnone : (initInstance ref s.nextConn (s.inst s.count)).hook = none :=
        congrArg (Option.map _) hc
      rw [hnone, hookAfter, if_pos rfl]
    · have hlt := hold j hj hjk
      rw [hookAfter, if_neg (by omega), hinst, if_neg hjk]
      exact h.hook j (hlive j hj hjk)
  · intro j hj
    by_cases hjk : j = s.count
    · rw [hjk]; omega
    · have hlt := hold j hj hjk
      omega
  · intro j i hj hi hji
    by_cases hjk : j = s.count <;> by_cases hik : i = s.count
    · rw [hjk, hik]
    · have hlt := hold i hi hik
      rw [hjk] at hji; omega
    · have hlt := hold j hj hjk
      rw [hik] at hji; omega
    · rw [hinst, hinst, if_neg hjk, if_neg hik] at hji
      exact h.inj j i (hlive j hj hjk) (hlive i hi hik) hji
  · intro j c hcj
    rw [hcalls] at hcj
    have hjk : j ≠ s.count := by
      rintro rfl
      rw [hnocalls] at hcj
      cases hcj
    rw [hinst, if_neg hjk, htrace]
    exact issuedFor_append (h.issued j c hcj) _
  · intro id conn stage n hissue
    rw [htrace] at hissue
    rw [hid]
    rcases List.mem_append.1 hissue with hissue | hissue
    · exact h.fresh _ _ _ _ hissue
    · cases List.mem_singleton.1 hissue
  · rw [htrace]
    exact h.hooked.concat trivial

/-- **An instance is disposed of**, and the last one moves if neither slot has a call. -/
theorem dispose (h : HookInv s) {i : ℕ}
    (hidle : i < s.count - 1 → s.calls i = [] ∧ s.calls (s.count - 1) = []) :
    HookInv (disposeInstance s i) := by
  obtain ⟨hcount, hid, hnext, -, -⟩ := disposeInstance_const s i
  have hcalls : ∀ j, (disposeInstance s i).calls j = s.calls j := disposeInstance_calls s i
  have htrace : ∃ new, (disposeInstance s i).trace = s.trace ++ new ∧ ∀ e ∈ new, e.IsDispose := by
    obtain ⟨new, hnew, htouch⟩ := disposeInstance_trace s i
    refine ⟨_, hnew, fun e he => (List.mem_append.1 he).elim (fun he => ?_) fun he => ?_⟩
    · obtain ⟨block, rfl⟩ := mem_deallocs he
      trivial
    · obtain ⟨k, n, rfl, -⟩ := htouch e he
      trivial
  by_cases hmove : i < s.count - 1
  · have hlive : ∀ j, (disposeInstance s i).Live j → s.Live j ∧ j ≠ s.count - 1 := fun j hj => by
      rw [Registry.Live, hcalls, hcount] at hj
      rcases hj with hj | hj
      · exact ⟨.inl (by omega), hj.ne⟩
      · exact ⟨.inr hj, fun he => hj (he ▸ (hidle hmove).2)⟩
    have hclient : ∀ j, ((disposeInstance s i).inst j).client =
        (s.inst (if j = i then s.count - 1 else j)).client := fun j => by
      rw [disposeInstance_move hmove, moveInstance_inst]
      split_ifs with hji
      · rw [disposeSlot_inst hmove.ne']
      · rw [disposeSlot_inst hji]
    refine h.moved (fun j => if j = i then s.count - 1 else j) ?_ ?_
      (fun j => Instance.hook_eq (hclient j)) (fun j => congrArg Client.conn (hclient j)) ?_ hnext
      hid htrace
    · intro j hj
      split_ifs
      · exact .inl (by omega)
      · exact (hlive j hj).1
    · intro j k hj hk hjk
      have hj' := (hlive j hj).2
      have hk' := (hlive k hk).2
      beta_reduce at hjk
      split_ifs at hjk <;> omega
    · intro j c hc
      rw [hcalls] at hc
      refine ⟨hc, if_neg ?_⟩
      rintro rfl
      rw [(hidle hmove).1] at hc
      cases hc
  · have hlive : ∀ j, (disposeInstance s i).Live j → s.Live j := fun j hj => by
      rw [Registry.Live, hcalls, hcount] at hj
      exact hj.imp_left fun hj => by omega
    have hclient : ∀ j, ((disposeInstance s i).inst j).client = (s.inst j).client := fun j => by
      rw [disposeInstance_last hmove]
      exact disposeSlot_client s i j
    exact h.moved (fun j => j) hlive (fun _ _ _ _ hjk => hjk)
      (fun j => Instance.hook_eq (hclient j)) (fun j => congrArg Client.conn (hclient j))
      (fun j c hc => ⟨hcalls j ▸ hc, rfl⟩) hnext hid htrace

end HookInv

/-! ## Events -/

/-- The invariant with what the notification knows. -/
structure HookRegInv (s : Registry) : Prop where
  slots : HookInv s
  phase : s.notify.HookOk s

theorem HookRegInv.boot (slots : ℕ → Instance) : HookRegInv (.boot slots) := by
  have hlive : ∀ k, ¬(Registry.boot slots).Live k := fun k hk =>
    hk.elim (Nat.not_lt_zero k) fun h => h rfl
  exact ⟨⟨fun k hk => (hlive k hk).elim, fun k hk => (hlive k hk).elim,
    fun k _ hk => (hlive k hk).elim, fun _ _ hc => absurd hc List.not_mem_nil,
    fun _ _ _ _ he => absurd he List.not_mem_nil, Each.nil⟩, trivial⟩

section
variable {usl : ℕ → UslAnswer} {s s' : Registry}

theorem notifyStep_hookInv {accepted : Bool} (h : HookRegInv s)
    (hs : notifyStep s accepted = some s') : HookRegInv s' := by
  obtain ⟨hslots, hphase⟩ := h
  rcases hn : s.notify with _ | ⟨i, busy⟩ | ⟨i, busy⟩ | ⟨i, busy⟩ | ⟨i, busy⟩ | i | i | ⟨i, w⟩ | busy
  all_goals
    rw [hn] at hphase
    simp only [notifyStep, hn, reduceCtorEq] at hs
  case mark =>
    split_ifs at hs with hi <;> obtain rfl := Option.some.inj hs
    · exact ⟨(hslots.store rfl rfl).goto _, hi⟩
    · exact ⟨⟨hslots.hook, hslots.conn, hslots.inj, hslots.issued, hslots.fresh, hslots.hooked⟩, trivial⟩
  case unhook =>
    obtain rfl := Option.some.inj hs
    have hcleared : HookInv ((s.updInst i .unhook).log (.clearHook (s.inst i).conn)) :=
      hslots.setHook (.inl hphase) (fun _ => rfl) trivial (by simp)
        (fun _ _ hne => if_neg hne.symm) fun _ => if_pos rfl
    refine ⟨hcleared.goto _, ?_⟩
    exact congrArg Instance.eventCallback ((Registry.inst_updInst s i _ i).trans (if_pos rfl))
  case unref =>
    obtain rfl := Option.some.inj hs
    have hnone : ∀ inst : Instance, inst.eventCallback = none → inst.hook = none := fun _ hc =>
      congrArg (Option.map _) hc
    have hsame : (s.inst i).unref.hook = (s.inst i).hook := by
      rw [hnone _ hphase]; exact hnone _ hphase
    exact ⟨(hslots.store hsame rfl).goto _, trivial⟩
  case test =>
    split_ifs at hs <;> obtain rfl := Option.some.inj hs <;> exact ⟨hslots.goto _, trivial⟩
  case abort =>
    split_ifs at hs <;> obtain rfl := Option.some.inj hs
    · exact ⟨(hslots.dropReads i).goto _, trivial⟩
    · exact ⟨hslots.goto _, trivial⟩
  case refused =>
    obtain rfl := Option.some.inj hs
    exact ⟨hslots.goto _, trivial⟩
  case clear =>
    obtain rfl := Option.some.inj hs
    exact ⟨(hslots.store rfl rfl).goto _, trivial⟩

theorem HookInv.init (h : HookInv s) {d : InterfaceDescriptor} {ref : ℕ}
    (hok : d.Supported → s.count < maxInterfaces →
      (s.inst s.count).eventCallback = none ∧ s.calls s.count = []) :
    HookInv (initializeInterface usl s d ref).1 := by
  unfold initializeInterface claimInstance
  split_ifs with hclass hends hfull
  · exact h
  · exact h
  · exact h
  have hsupported : d.Supported := by
    simp only [not_or, not_not] at hclass
    exact ⟨hclass.1, hclass.2, Nat.le_of_not_lt hends⟩
  obtain ⟨hnone, hnocalls⟩ := hok hsupported (Nat.lt_of_not_le hfull)
  have hconnect := h.connect ref hnone hnocalls
  exact hconnect.put (.inl (Nat.lt_succ_self _)) (initiateTransaction_kept _ _)
    ((hconnect.serves _).initiateTransaction _)

theorem HookInv.setEventCallback (h : HookInv s) (index : ℕ) (callback : Option ℕ)
    (refcon : UInt32) : HookInv (setEventCallback s index callback refcon).1 := by
  unfold Usbmidi9.setEventCallback
  split_ifs with hi
  · exact h
  · exact h.setHook (.inl (Nat.lt_of_not_le hi)) (fun _ => rfl) trivial (by simp)
      (fun _ _ hne => if_neg hne.symm) fun _ => if_pos rfl

theorem HookInv.finalize (h : HookInv s) {ref : ℕ}
    (hok : ∀ i ∈ finalizeIndex s ref, i < s.count - 1 →
      s.calls i = [] ∧ s.calls (s.count - 1) = []) :
    HookInv (finalizeProc s ref) := by
  unfold finalizeProc
  split
  next i hi => exact h.dispose (hok i hi)
  next => exact h

theorem HookRegInv.completion (h : HookRegInv s) {k id : ℕ} (hid : id ∈ (s.calls k).map Call.id)
    (r : UslResult) : HookRegInv (s.put k (completeCall usl k id r (s.machine k))) := by
  have hcalls : s.calls k ≠ [] := fun hc => by rw [hc] at hid; cases hid
  have hkept : Kept (s.machine k) (completeCall usl k id r (s.machine k)) :=
    (Kept.finish _ id r).trans (completionProc_kept (initiateTransaction_kept _) _ _)
  have hserves := h.slots.serves k
  obtain ⟨c, hc, hcid⟩ := List.mem_map.1 hid
  have hknows : ((s.machine k).finish id r).Knows s.trace id := hcid ▸ hserves.calls c hc
  have hcompleted : Serves s.trace (completeCall usl k id r (s.machine k)) :=
    (hserves.finish id r).completionProc (fun _ hm => hm.initiateTransaction transFuel) hknows
  refine ⟨h.slots.put (.inr hcalls) hkept hcompleted, ?_⟩
  have hphase := h.phase
  show s.notify.HookOk _
  cases hn : s.notify with
  | unref i busy =>
    rw [hn] at hphase
    by_cases hik : i = k
    · subst hik
      rw [NotifyPhase.HookOk, Registry.inst_put_self]
      exact (congrArg Client.eventCallback hkept.client).trans hphase
    · rw [NotifyPhase.HookOk, Registry.inst, Registry.slots_put, if_neg hik]
      exact hphase
  | unhook i busy => rw [hn] at hphase; exact hphase
  | _ => trivial

theorem HookRegInv.task (h : HookRegInv s) {f : Registry → Registry} (hs : s.task f = some s') :
    HookInv (s.goto .idle) ∧ s' = f (s.goto .idle) := by
  unfold Registry.task at hs
  split_ifs at hs
  exact ⟨h.slots.goto _, (Option.some.inj hs).symm⟩

theorem HookRegInv.of_idle (h : HookInv s) (hn : s.notify = .idle) : HookRegInv s :=
  ⟨h, hn ▸ trivial⟩

/-- **Every event** that meets the condition keeps the invariant. -/
theorem registryStep_hookInv {e : RegistryEvent} (h : HookRegInv s) (hok : e.HookOk s)
    (hs : registryStep usl s e = some s') : HookRegInv s' := by
  cases e with
  | init d ref =>
    simp only [registryStep] at hs
    obtain ⟨ht, rfl⟩ := h.task hs
    exact .of_idle (ht.init hok) (initializeInterface_notify d ref)
  | setEventCallback index callback refcon =>
    simp only [registryStep] at hs
    obtain ⟨ht, rfl⟩ := h.task hs
    exact .of_idle (ht.setEventCallback ..) (setEventCallback_notify ..)
  | completion k id r =>
    simp only [registryStep] at hs
    split_ifs at hs with hid
    exact Option.some.inj hs ▸ h.completion hid r
  | notify =>
    simp only [registryStep] at hs
    obtain ⟨ht, rfl⟩ := h.task hs
    exact ⟨ht.goto _, trivial⟩
  | notifyStep accepted => exact notifyStep_hookInv h hs
  | finalize ref =>
    simp only [registryStep] at hs
    obtain ⟨ht, rfl⟩ := h.task hs
    exact .of_idle (ht.finalize hok) (finalizeProc_notify ref)

/-- **Every callback** that a read completion makes was stored for the connection whose
    read it is, after the connection was initialised, and not cleared since. -/
theorem hooks_fresh {slots : ℕ → Instance}
    (h : Reach (registryStep usl) (fun s e => e.HookOk s) (.boot slots) s)
    {pre post : List Entry} {id index : ℕ} {hook : Hook}
    (ht : s.trace = pre ++ .callback id hook index :: post) :
    ∃ conn, issuedFor id pre = some conn ∧ hookOf conn pre = some hook := by
  have hinv : HookRegInv s := h.inv (.boot slots) fun _ _ _ hs hok => registryStep_hookInv hs hok
  exact hinv.slots.hooked pre _ post ht

end

/-- The completions that bring slot `k` to its first read, whose call is `id + 4`,
    and a read of one packet. -/
def firstRead (k id : ℕ) : List RegistryEvent :=
  [.completion k id (okResult 0 []), .completion k (id + 1) (okResult 0 []),
    .completion k (id + 2) (okResult 7 []), .completion k (id + 3) (okResult 0 []),
    .completion k (id + 4) (okResult 0 [9, 0x90, 0x30, 0x50])]

/-- The calls of `firstRead` for a connection, up to the read. -/
def firstCalls (conn id : ℕ) : List Entry :=
  [.complete id, .issue (id + 1) conn kConfigureInterfaceState 0, .complete (id + 1),
    .issue (id + 2) conn kFindBulkInPipeState 0, .complete (id + 2),
    .issue (id + 3) conn kAllocReadBufferState 0, .complete (id + 3),
    .issue (id + 4) conn kReadBulkInPipeState 0, .complete (id + 4)]

/-- A client hooks a fresh interface, and a packet arrives. -/
theorem hooks_fresh_read : ∃ s,
    runEvents (registryStep pendingUsl) (.boot fun _ => default)
      (.init midiStreaming 10 :: .setEventCallback 0 (some 1) 7 :: firstRead 0 0) = some s ∧
      ∃ conn, issuedFor 4 (.init 0 :: .issue 0 0 kAllocRingState 0 :: .setHook 0 (some (1, 7)) ::
        firstCalls 0 0) = some conn ∧
        hookOf conn (.init 0 :: .issue 0 0 kAllocRingState 0 :: .setHook 0 (some (1, 7)) ::
          firstCalls 0 0) = some (1, 7) := by
  have hrun : (runEvents (registryStep pendingUsl) (.boot fun _ => default)
      (.init midiStreaming 10 :: .setEventCallback 0 (some 1) 7 :: firstRead 0 0)).map
        Registry.trace =
      some ((.init 0 :: .issue 0 0 kAllocRingState 0 :: .setHook 0 (some (1, 7)) ::
        firstCalls 0 0) ++ [.callback 4 (1, 7) 0, .issue 5 0 kReadBulkInPipeState 0]) := by
    decide +kernel
  obtain ⟨s, hs, ht⟩ := Option.map_eq_some_iff.1 hrun
  exact ⟨s, hs, hooks_fresh (.of_run (by decide +kernel) hs) ht⟩

/-- **A hook set again after the notification** stays in the slot, and is called
    for the interface that is initialised there next. -/
theorem hook_stale : ∃ s pre,
    Reach (registryStep pendingUsl) (fun s e => e.Disciplined s) (.boot fun _ => default) s ∧
      s.trace = pre ++ [.callback 5 (1, 7) 0, .issue 6 1 kReadBulkInPipeState 0] ∧
      issuedFor 5 pre = some 1 ∧ hookOf 1 pre = none := by
  have hrun : (runEvents (registryStep pendingUsl) (.boot fun _ => default)
      (.init midiStreaming 10 :: notification 6 true ++ .completion 0 0 (okResult 0 []) ::
        notification 5 true ++ .setEventCallback 0 (some 1) 7 :: .finalize 10 ::
          .init midiStreaming 11 :: firstRead 0 1)).map Registry.trace =
      some ([.init 0, .issue 0 0 kAllocRingState 0, .clearHook 0, .complete 0, .clearHook 0,
        .setHook 0 (some (1, 7)), .dealloc 0 0x1000, .touch 0 0, .init 1,
        .issue 1 1 kAllocRingState 0] ++
          firstCalls 1 1 ++ [.callback 5 (1, 7) 0, .issue 6 1 kReadBulkInPipeState 0]) := by
    decide +kernel
  obtain ⟨s, hs, ht⟩ := Option.map_eq_some_iff.1 hrun
  exact ⟨s, _, .of_run (by decide +kernel) hs, ht, by decide⟩

end Usbmidi9
