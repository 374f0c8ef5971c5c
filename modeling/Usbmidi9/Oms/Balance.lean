/-
  USBMIDI9 — the routine descriptors and the notifications of the shim
  (`oms/oms_driver.c`).

  The shim holds at most one of each.  `Oms.Leases` says that the trace is one in which
  each is released before the next one is acquired, and that `g_oms` knows the ones that
  are held.  Only the send proc's allocation, the installation and `omsRelease` touch
  them; everything else keeps them (`LeasesKept`).

  Hence `leases_balanced`, and that a send proc which is handed out is live
  (`omsGetPortSendProc_route_iff`).
-/
import Usbmidi9.Lib.Lease
import Usbmidi9.Lib.Trace
import Usbmidi9.Oms.Frames
import Usbmidi9.Oms.Rechunk

namespace Usbmidi9

/-! ## What is held -/

/-- `NewOMSReadHook2` and `DisposeRoutineDescriptor`. -/
def OmsEntry.descriptor : OmsEntry → Option (Lease ℕ)
  | .newDescriptor upp => some (.acquire upp)
  | .disposeDescriptor upp => some (.release upp)
  | _ => none

/-- `USBInstallDeviceNotification` and `USBRemoveDeviceNotification`. -/
def OmsEntry.notification : OmsEntry → Option (Lease ℕ)
  | .installNotification token => some (.acquire token)
  | .removeNotification token => some (.release token)
  | _ => none

/-- The token of the notification that is installed. -/
def OmsGlobals.installedToken (g : OmsGlobals) : Option ℕ :=
  if g.notifierInstalled then some g.token else none

/-- `g_oms` holds what the trace acquired and did not release. -/
structure Oms.Leases (s : Oms) : Prop where
  descriptor : Leased OmsEntry.descriptor s.trace s.g.sendUpp
  notification : Leased OmsEntry.notification s.trace s.g.installedToken

/-- Nothing is acquired or released. -/
structure LeasesKept (s s' : Oms) : Prop where
  sendUpp : s'.g.sendUpp = s.g.sendUpp
  installedToken : s'.g.installedToken = s.g.installedToken
  trace : ∃ new, s'.trace = s.trace ++ new ∧
    ∀ e ∈ new, e.descriptor = none ∧ e.notification = none

namespace LeasesKept
variable {s s' s'' : Oms}

theorem refl (s : Oms) : LeasesKept s s :=
  ⟨rfl, rfl, [], (List.append_nil _).symm, List.forall_mem_nil _⟩

theorem trans (h : LeasesKept s s') (h' : LeasesKept s' s'') : LeasesKept s s'' := by
  obtain ⟨new, hn, he⟩ := h.trace
  obtain ⟨new', hn', he'⟩ := h'.trace
  refine ⟨h'.sendUpp.trans h.sendUpp, h'.installedToken.trans h.installedToken, new ++ new', ?_, ?_⟩
  · rw [hn', hn, List.append_assoc]
  · intro e hm
    exact (List.mem_append.1 hm).elim (he e) (he' e)

/-- The trace stays. -/
theorem quiet (hu : s'.g.sendUpp = s.g.sendUpp) (hi : s'.g.installedToken = s.g.installedToken)
    (ht : s'.trace = s.trace) : LeasesKept s s' :=
  ⟨hu, hi, [], by rw [ht, List.append_nil], List.forall_mem_nil _⟩

/-- A change of other fields of `g_oms`. -/
theorem upd (s : Oms) {f : OmsGlobals → OmsGlobals} (hu : (f s.g).sendUpp = s.g.sendUpp)
    (hi : (f s.g).installedToken = s.g.installedToken) : LeasesKept s (s.upd f) := quiet hu hi rfl

theorem setPort (s : Oms) (i c : ℕ) (p : OmsPort) : LeasesKept s (s.setPort i c p) :=
  quiet rfl rfl rfl

theorem setDriver (s : Oms) (t : ℕ) (d : ClassDriver) : LeasesKept s (s.setDriver t d) :=
  quiet rfl rfl rfl

theorem log (s : Oms) {es : List OmsEntry}
    (h : ∀ e ∈ es, e.descriptor = none ∧ e.notification = none) : LeasesKept s (s.log es) :=
  ⟨rfl, rfl, es, rfl, h⟩

theorem leases (h : LeasesKept s s') (hs : s.Leases) : s'.Leases := by
  obtain ⟨new, hn, he⟩ := h.trace
  constructor
  · rw [hn, h.sendUpp]
    exact hs.descriptor.append fun e hm => (he e hm).1
  · rw [hn, h.installedToken]
    exact hs.notification.append fun e hm => (he e hm).2

end LeasesKept

/-! ## What keeps it -/

section
variable {s s' : Oms}

theorem Drained.leasesKept {i : ℕ} {deliver : Bool} {fs : List RxFrame}
    (h : Drained i deliver fs s s') : LeasesKept s s' := by
  obtain ⟨ifaces, n, m, k, hg⟩ := h.globals
  obtain ⟨new, hn, -, hfrom, -⟩ := h.trace
  refine ⟨by rw [hg], by rw [hg]; rfl, new, hn, ?_⟩
  intro e he
  have hdelivery := hfrom e he
  cases e with
  | received source session pkt ioRefNum => exact ⟨rfl, rfl⟩
  | _ => exact hdelivery.elim

theorem omsRxDrain_leasesKept (i : ℕ) (deliver : Bool) (s : Oms) :
    LeasesKept s (omsRxDrain i deliver s) := by
  by_cases h : ∃ t, s.Drains i t
  · obtain ⟨t, ht⟩ := h
    obtain ⟨fs, s', r, heq, hd⟩ := omsRxDrain_drained ht deliver
    rw [heq]
    exact hd.leasesKept.trans (.quiet rfl rfl rfl)
  · rw [omsRxDrain_skip (not_exists.1 h)]
    exact .refl s

theorem LeasesKept.frame : OmsFrame LeasesKept where
  refl := .refl
  trans := .trans
  drain := omsRxDrain_leasesKept
  locateFailed s := .upd s rfl rfl
  bound s _ _ := .upd s rfl rfl
  resetPorts _ := .quiet rfl rfl rfl
  setHook s t _ _ := .setDriver s t _
  registered s _ := .upd s rfl rfl
  detach s := .upd s rfl rfl
  enumerated s _ := .upd s rfl rfl
  validate s _ := .upd s rfl rfl
  started _ := .quiet rfl rfl rfl

theorem omsSetPortReceiveRefNum_leasesKept (s : Oms) (portID : Option OmsPortID)
    (ioRefNum : Int16) : LeasesKept s (omsSetPortReceiveRefNum s portID ioRefNum) := by
  unfold omsSetPortReceiveRefNum
  split
  · exact .refl s
  · exact .quiet rfl rfl rfl

theorem omsTxEmit_leasesKept (s : Oms) (portCode : ℕ) (ps : List EventPacket) :
    LeasesKept s (omsTxEmit s portCode ps) := by
  have hcount := LeasesKept.upd s (f := fun g =>
    { g with
      txConverted := g.txConverted + UInt32.ofNat ps.length
      txDropped := g.txDropped + UInt32.ofNat ps.length }) rfl rfl
  refine hcount.trans (.log _ ?_)
  intro e he
  obtain ⟨p, -, rfl⟩ := List.mem_map.1 he
  exact ⟨rfl, rfl⟩

theorem omsTxChunk_leasesKept {ifaceNo cable mode : ℕ} {pkt : OmsMidiPacket}
    (h : omsTxChunk s ifaceNo cable mode pkt = some s') : LeasesKept s s' := by
  obtain ⟨r, -, rfl⟩ := Option.map_eq_some_iff.1 h
  exact ((LeasesKept.setPort s _ _ r.port).trans (.upd _ rfl rfl)).trans
    (omsTxEmit_leasesKept _ _ _)

theorem omsTxMessage_leasesKept (s : Oms) (ifaceNo cable : ℕ) (pkt : OmsMidiPacket) :
    LeasesKept s (omsTxMessage s ifaceNo cable pkt) := by
  unfold omsTxMessage
  simp only
  split_ifs
  · exact .upd s rfl rfl
  · exact (LeasesKept.setPort s _ _ _).trans (.upd _ rfl rfl)
  · exact (LeasesKept.setPort s _ _ _).trans (omsTxEmit_leasesKept _ _ _)

theorem omsTxSend_leasesKept {pkt : Option OmsMidiPacket} {refCon : ℕ}
    (h : omsTxSend s pkt refCon = some s') : LeasesKept s s' := by
  unfold omsTxSend at h
  split at h
  · exact Option.some.inj h ▸ .quiet rfl rfl rfl
  simp only at h
  split_ifs at h
  · exact Option.some.inj h ▸ .quiet rfl rfl rfl
  · exact omsTxChunk_leasesKept h
  · exact Option.some.inj h ▸ omsTxMessage_leasesKept s _ _ _
  · exact omsTxChunk_leasesKept h

theorem omsCompletion_leasesKept (s : Oms) (t i : ℕ) (data : List UInt8) :
    LeasesKept s (omsCompletion s t i data) := by
  unfold omsCompletion
  simp only
  split_ifs
  · exact .refl s
  · exact ((LeasesKept.setDriver s t _).trans (.upd _ rfl rfl)).trans (omsRxDrain_leasesKept i _ _)
  · exact .setDriver s t _

/-! ## What moves it -/

namespace Oms.Leases

/-- The send proc's descriptor is allocated. -/
theorem newSendUpp (h : s.Leases) (hnone : s.g.sendUpp = none) (upp : Option ℕ) :
    (omsNewSendUpp s upp).Leases := by
  have hdescriptor := hnone ▸ h.descriptor
  cases upp with
  | none =>
    have hkept : LeasesKept s (omsNewSendUpp s none) := .quiet hnone.symm rfl (List.append_nil _)
    exact hkept.leases h
  | some upp => exact ⟨hdescriptor.acquire rfl, h.notification.other rfl⟩

/-- The notification is installed, or not. -/
theorem installed (h : s.Leases) (hnone : s.g.installedToken = none) (token : Option ℕ) :
    (s.installed token).Leases := by
  have hnotification := hnone ▸ h.notification
  cases token with
  | none => exact h
  | some token => exact ⟨h.descriptor.other rfl, hnotification.acquire rfl⟩

/-- Both are released, and forgotten. -/
theorem release (h : s.Leases) : (omsRelease s).cleared.Leases := by
  obtain ⟨hdescriptor, hnotification⟩ := h
  unfold omsRelease
  simp only
  generalize hs : (if s.g.notifierInstalled then (s.upd fun g =>
    { g with notifierInstalled := false }).log [.removeNotification s.g.token] else s) = s₁
  have hremoved : Leased OmsEntry.descriptor s₁.trace s.g.sendUpp ∧
      Leased OmsEntry.notification s₁.trace none := by
    subst hs
    by_cases hin : s.g.notifierInstalled = true
    · rw [OmsGlobals.installedToken, if_pos hin] at hnotification
      rw [if_pos hin]
      exact ⟨hdescriptor.other rfl, hnotification.release rfl⟩
    · rw [OmsGlobals.installedToken, if_neg hin] at hnotification
      rw [if_neg hin]
      exact ⟨hdescriptor, hnotification⟩
  have hsame : s₁.g.sendUpp = s.g.sendUpp := by
    subst hs
    split_ifs <;> rfl
  obtain ⟨hdescriptor₁, hnotification₁⟩ := hremoved
  rw [hsame]
  cases hupp : s.g.sendUpp with
  | none =>
    rw [hupp] at hdescriptor₁
    exact ⟨hdescriptor₁.append (List.forall_mem_nil _),
      hnotification₁.append (List.forall_mem_nil _)⟩
  | some upp =>
    rw [hupp] at hdescriptor₁
    exact ⟨hdescriptor₁.release rfl, hnotification₁.other rfl⟩

theorem getPortSendProc (h : s.Leases) (portID : Option OmsPortID)
    (sendPars : Option OmsSendParams) (upp : Option ℕ) :
    (omsGetPortSendProc s portID sendPars upp).1.Leases := by
  have hretry : (if s.g.sendUpp = none then omsNewSendUpp s upp else s).Leases := by
    split_ifs with hnone
    · exact h.newSendUpp hnone upp
    · exact h
  unfold omsGetPortSendProc
  split
  · split
    · exact h
    · simp only
      split <;> exact hretry
  · exact h

theorem init (h : s.Leases) (a : InitAnswers) : (omsInit s a).Leases := by
  have hnew := h.release.newSendUpp rfl a.upp
  have hnotified := LeasesKept.frame.foldl LeasesKept.frame.usbNotify a.installed
    (omsNewSendUpp (omsRelease s).cleared a.upp)
  have hinstalled := (hnotified.leases hnew).installed hnotified.installedToken a.token
  have hlocated := (LeasesKept.frame.locateDispatch _ a.devices).leases hinstalled
  have hroutine : ∀ s : Oms, LeasesKept s (s.upd fun g => { g with rxRoutine := a.routine }) :=
    fun s => .upd s rfl rfl
  exact (hroutine _).leases hlocated

theorem dispose (h : s.Leases) : (omsDispose s).Leases := by
  unfold omsDispose
  simp only
  apply release
  split
  · split_ifs
    · exact (LeasesKept.frame.foldl (fun s i => .setDriver s _ _) _ s).leases h
    · exact h
  · exact h

theorem handleMessage (h : s.Leases) (m : OmsMessage) : (omsHandleMessage s m).Leases := by
  cases m with
  | init answers => exact h.init answers
  | dispose => exact h.dispose
  | addDevices hasProc devices => exact (LeasesKept.frame.addDevices s hasProc devices).leases h
  | startMIDI => exact h
  | startMIDI2 devices => exact (LeasesKept.frame.startMidi2 s devices).leases h
  | stopMIDI =>
    have hstop : LeasesKept s (omsStopMidi s) := .quiet rfl rfl rfl
    exact hstop.leases h
  | getPortSendProc portID sendPars upp => exact h.getPortSendProc portID sendPars upp
  | setPortReceiveRefNum portID ioRefNum =>
    exact (omsSetPortReceiveRefNum_leasesKept s portID ioRefNum).leases h
  | other => exact h

/-- **One step** keeps the leases. -/
theorem step (h : s.Leases) {e : OmsEvent} (hs : omsStep s e = some s') : s'.Leases := by
  cases e with
  | message m => exact Option.some.inj hs ▸ h.handleMessage m
  | notification n => exact Option.some.inj hs ▸ (LeasesKept.frame.usbNotify s n).leases h
  | completion t i data =>
    simp only [omsStep] at hs
    split_ifs at hs
    exact Option.some.inj hs ▸ (omsCompletion_leasesKept s t i data).leases h
  | send pkt refCon => exact (omsTxSend_leasesKept hs).leases h
  | appear t buf =>
    simp only [omsStep] at hs
    split_ifs at hs
    exact Option.some.inj hs ▸ (LeasesKept.setDriver s t _).leases h
  | removed t => exact Option.some.inj hs ▸ (LeasesKept.setDriver s t _).leases h

/-- Every reachable state has its leases. -/
theorem reach {drivers : ℕ → ClassDriver}
    (h : Reach omsStep (fun _ _ => True) (.boot drivers) s) : s.Leases :=
  h.inv ⟨.nil, .nil⟩ fun _ _ _ hs _ hst => hs.step hst

end Oms.Leases

/-! ## Balance -/

/-- Nothing is ever held twice or released twice, for either kind of lease. -/
theorem Leased.ledger {ε : Type*} {lease : ε → Option (Lease ℕ)} {l : List ε} {held : Option ℕ}
    (h : Leased lease l held) :
    (∀ l', l' <+: l → released lease l' ≤ acquired lease l' ∧ acquired lease l' ≤ released lease l' + 1) ∧
      Each (fun l' e => ∀ k, lease e = some (.release k) →
        releasedOf lease k l' < acquiredOf lease k l') l := by
  constructor
  · rintro l' ⟨rest, rfl⟩
    obtain ⟨held', h'⟩ := h.left
    have hbalance := h'.balance
    split_ifs at hbalance <;> omega
  · rintro l' e rest rfl k he
    have hheld := (h.held_of_release he).balance_of k
    rw [if_pos rfl] at hheld
    omega

/-- **Descriptors and notifications balance.**  Created and not disposed of is the send
    proc's descriptor, installed and not removed is the notification that `g_oms` knows,
    after any events; at no time is there more than one of either, none is released that
    is not held, and `omdvDispose` leaves none. -/
theorem leases_balanced {drivers : ℕ → ClassDriver}
    (h : Reach omsStep (fun _ _ => True) (.boot drivers) s) :
    acquired OmsEntry.descriptor s.trace =
        released OmsEntry.descriptor s.trace + (if s.g.sendUpp = none then 0 else 1) ∧
      acquired OmsEntry.notification s.trace =
        released OmsEntry.notification s.trace + (if s.g.notifierInstalled then 1 else 0) ∧
      (∀ lease ∈ [OmsEntry.descriptor, OmsEntry.notification],
        (∀ l, l <+: s.trace → released lease l ≤ acquired lease l ∧
          acquired lease l ≤ released lease l + 1) ∧
        Each (fun l e => ∀ k, lease e = some (.release k) →
          releasedOf lease k l < acquiredOf lease k l) s.trace) ∧
      ∀ s', omsStep s (.message .dispose) = some s' →
        s'.g.sendUpp = none ∧ s'.g.notifierInstalled = false ∧
        acquired OmsEntry.descriptor s'.trace = released OmsEntry.descriptor s'.trace ∧
        acquired OmsEntry.notification s'.trace = released OmsEntry.notification s'.trace := by
  have hleases := Oms.Leases.reach h
  have htoken : ∀ g : OmsGlobals, (if g.installedToken = none then 0 else 1) =
      if g.notifierInstalled then 1 else 0 := by
    intro g
    unfold OmsGlobals.installedToken
    cases g.notifierInstalled <;> rfl
  refine ⟨hleases.descriptor.balance, ?_, ?_, ?_⟩
  · rw [← htoken]
    exact hleases.notification.balance
  · intro lease hlease
    rcases List.mem_pair.1 hlease with rfl | rfl
    · exact hleases.descriptor.ledger
    · exact hleases.notification.ledger
  · intro s' hs'
    have hdisposed := hleases.step hs'
    obtain rfl := Option.some.inj hs'
    exact ⟨rfl, rfl, hdisposed.descriptor.balance, hdisposed.notification.balance⟩

/-- A second `omdvInit`, the first allocation of a send proc having failed. -/
def initTwiceEvents : List OmsEvent :=
  [.message (.init ⟨none, [], some 7, [], 0⟩),
    .message (.getPortSendProc (some ⟨1, 0⟩) (some ⟨none, 0, 0⟩) (some 1)),
    .message (.init ⟨some 2, [.other], some 8, [], 0⟩)]

theorem leases_balanced_twice :
    let s := afterEvents initTwiceEvents
    s.g.sendUpp = some 2 ∧
      acquired OmsEntry.descriptor s.trace = released OmsEntry.descriptor s.trace + 1 := by
  have hreach : Reach omsStep (fun _ _ => True) (.boot fun _ => .single)
      (afterEvents initTwiceEvents) :=
    .of_run runOk_true (show runEvents _ _ initTwiceEvents = _ from rfl)
  exact ⟨rfl, (leases_balanced hreach).1⟩

/-! ## The send proc -/

/-- The descriptor was created and not disposed of. -/
def Oms.Live (s : Oms) (upp : ℕ) : Prop :=
  releasedOf OmsEntry.descriptor upp s.trace < acquiredOf OmsEntry.descriptor upp s.trace

theorem Oms.Leases.live (h : s.Leases) {upp : ℕ} (hupp : s.g.sendUpp = some upp) : s.Live upp := by
  have hbalance := h.descriptor.balance_of upp
  rw [if_pos hupp] at hbalance
  rw [Live, hbalance]
  exact Nat.lt_succ_self _

/-- The send hook takes `refCon` for the port that `id` names. -/
def Addresses (refCon : ℕ) (id : OmsPortID) : Prop :=
  ∃ ifaceNo cable : ℕ, (ifaceNo : ℤ) = id.whichInterface.toInt ∧
    (cable : ℤ) = id.whichPort.toInt ∧ sendPort? refCon = some (ifaceNo, cable)

/-- What an answer of `omdvGetPortSendProc` without an error leads to: a send proc that is
    live, for the port. -/
def SendRoute (id : OmsPortID) (answer : Oms × ℤ × Option OmsSendParams) : Prop :=
  answer.2.1 = 0 → ∃ sendPars upp, answer.2.2 = some sendPars ∧ sendPars.proc = some upp ∧
    answer.1.g.sendUpp = some upp ∧ answer.1.Live upp ∧ Addresses sendPars.paramD0 id

theorem unsignedOfShort_eq {x : Int16} {n : ℕ} (h : unsignedOfShort x = n) (hn : n < 2 ^ 15) :
    x.toInt = n := by
  have hlo : -2 ^ 15 ≤ x.toInt := x.le_toInt
  have hhi : x.toInt < 2 ^ 15 := x.toInt_lt
  unfold unsignedOfShort u32Size at h
  omega

theorem unsignedOfShort_of_toInt {x : Int16} {n : ℕ} (h : (n : ℤ) = x.toInt) :
    unsignedOfShort x = n := by
  have hhi : x.toInt < 2 ^ 15 := x.toInt_lt
  unfold unsignedOfShort u32Size
  omega

/-- **The encoding of a port** and the hook's decoding agree. -/
theorem sendPort?_encode {ifaceNo cable : ℕ} (h1 : 1 ≤ ifaceNo) (h8 : ifaceNo ≤ omsMaxInterfaces)
    (hc : cable < omsCables) : sendPort? ((ifaceNo <<< 8) ||| cable) = some (ifaceNo, cable) := by
  have hall : ∀ i ≤ omsMaxInterfaces, ∀ c < omsCables, 1 ≤ i →
      sendPort? ((i <<< 8) ||| c) = some (i, c) := by
    decide
  exact hall ifaceNo h8 cable hc h1

/-- The port that a port ID names, if it is one of the shim's. -/
theorem OmsPortID.port?_eq_some {id : OmsPortID} {ifaceNo cable : ℕ} :
    id.port? = some (ifaceNo, cable) ↔
      (ifaceNo : ℤ) = id.whichInterface.toInt ∧ (cable : ℤ) = id.whichPort.toInt ∧
        1 ≤ ifaceNo ∧ ifaceNo ≤ omsMaxInterfaces ∧ cable < omsCables := by
  unfold port?
  simp only
  constructor
  · intro h
    split_ifs at h with hbad
    simp only [Option.some.injEq, Prod.mk.injEq] at h
    obtain ⟨hi, hc⟩ := h
    have hmax : omsMaxInterfaces < 2 ^ 15 ∧ omsCables ≤ 2 ^ 15 := by decide
    have hiface := unsignedOfShort_eq hi (by omega)
    have hcable := unsignedOfShort_eq hc (by omega)
    exact ⟨hiface.symm, hcable.symm, by omega⟩
  · rintro ⟨hi, hc, hbounds⟩
    rw [unsignedOfShort_of_toInt hi, unsignedOfShort_of_toInt hc, if_neg (by omega)]

/-- **`omdvGetPortSendProc` leads to a live send proc for the port, or fails**, exactly
    for the port IDs that name a port. -/
theorem omsGetPortSendProc_route_iff {drivers : ℕ → ClassDriver}
    (h : Reach omsStep (fun _ _ => True) (.boot drivers) s) (id : OmsPortID)
    (sendPars : OmsSendParams) (upp : Option ℕ) :
    SendRoute id (omsGetPortSendProc s (some id) (some sendPars) upp) ↔ id.port? ≠ none := by
  have hleases := (Oms.Leases.reach h).getPortSendProc (some id) (some sendPars) upp
  rcases hid : id.port? with _ | ⟨ifaceNo, cable⟩
  · -- zero is returned, and no parameters lead to a port that there is not
    refine iff_of_false ?_ (not_not.2 rfl)
    intro hroute
    have hanswer : (omsGetPortSendProc s (some id) (some sendPars) upp).2.1 = 0 := by
      simp only [omsGetPortSendProc, hid]
    obtain ⟨pars, _, -, -, -, -, ifaceNo, cable, hi, hc, hport⟩ := hroute hanswer
    obtain ⟨⟨h1, h8⟩, h16⟩ := sendPort?_bounds hport
    have hsome := OmsPortID.port?_eq_some.2 ⟨hi, hc, h1, h8, h16⟩
    rw [hid] at hsome
    cases hsome
  · refine iff_of_true ?_ (Option.some_ne_none _)
    obtain ⟨hi, hc, h1, h8, h16⟩ := OmsPortID.port?_eq_some.1 hid
    have haddress : Addresses ((ifaceNo <<< 8) ||| cable) id :=
      ⟨ifaceNo, cable, hi, hc, sendPort?_encode h1 h8 h16⟩
    intro hzero
    unfold omsGetPortSendProc at hzero hleases ⊢
    simp only [hid] at hzero hleases ⊢
    generalize (if s.g.sendUpp = none then omsNewSendUpp s upp else s) = s₁ at hzero hleases ⊢
    rcases hupp : s₁.g.sendUpp with _ | upp'
    · simp only [hupp] at hzero
      exact absurd hzero (by decide)
    · simp only [hupp] at hleases
      exact ⟨⟨some upp', (ifaceNo <<< 8) ||| cable, 0⟩, upp', rfl, rfl, hupp, hleases.live hupp,
        haddress⟩

/-- A port ID of interface 2, the first allocation of a send proc having failed. -/
theorem omsGetPortSendProc_route_retried :
    SendRoute ⟨2, 3⟩ (omsGetPortSendProc (afterEvents (initTwiceEvents.take 1)) (some ⟨2, 3⟩)
      (some ⟨none, 0, 0⟩) (some 1)) := by
  have hreach : Reach omsStep (fun _ _ => True) (.boot fun _ => .single)
      (afterEvents (initTwiceEvents.take 1)) :=
    .of_run runOk_true (show runEvents _ _ (initTwiceEvents.take 1) = _ from rfl)
  exact (omsGetPortSendProc_route_iff hreach ⟨2, 3⟩ ⟨none, 0, 0⟩ (some 1)).2 (by decide)

/-- **A NULL send proc is handed out** for interface 0. -/
theorem not_omsGetPortSendProc_route :
    Reach omsStep (fun _ _ => True) (.boot fun _ => .single) (afterEvents initTwiceEvents) ∧
      ¬SendRoute ⟨0, 0⟩ (omsGetPortSendProc (afterEvents initTwiceEvents) (some ⟨0, 0⟩)
        (some ⟨none, 0, 0⟩) (some 3)) := by
  refine ⟨.of_run runOk_true (show runEvents _ _ initTwiceEvents = _ from rfl), ?_⟩
  intro hroute
  obtain ⟨sendPars, upp, hpars, hproc, -⟩ := hroute rfl
  obtain rfl := Option.some.inj hpars
  cases hproc

end

end Usbmidi9
