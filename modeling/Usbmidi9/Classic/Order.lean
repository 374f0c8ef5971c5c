/-
  USBMIDI9 — the order of the calls of one interface connection.

  `UslEntry` is what passes between a connection and the library, and `StageOrder`
  an abstract automaton over such entries: the calls follow `callSeq`, each one is
  issued when the one before it completed well, and the reads use what the earlier
  calls obtained.  A log that the automaton accepts has the properties of
  `StageOrder.Explains`; they are read off at every call of the log by
  `accepted_call` and `accepted_read`, and after a stop by `accepted_stop`.
-/
import Usbmidi9.Classic.Instance
import Usbmidi9.Lib.Reach

namespace Usbmidi9

/-! ## Logs -/

/-- The calls of the library that the stages make. -/
inductive UslCall where
  | allocMem
  | configureInterface
  | findNextPipe
  | bulkRead
deriving DecidableEq, Repr

/-- What passes between a connection and the library. -/
inductive UslEntry where
  /-- call `id` is issued with this parameter block -/
  | issue (id : ℕ) (call : UslCall) (pb : UsbPB)
  /-- the completion of call `id` is executed on this parameter block -/
  | done (id : ℕ) (pb : UsbPB)
  /-- `USBClearPipeStallByReference` -/
  | clearStall (pipe : ℕ)
  /-- `kReturnFromDriver` is stored -/
  | stop

/-- The call of an entry that issues one. -/
def UslEntry.call? : UslEntry → Option UslCall
  | .issue _ call _ => some call
  | _ => none

/-- The calls of a log. -/
def callsOf (L : List UslEntry) : List UslCall := L.filterMap UslEntry.call?

@[simp] theorem callsOf_nil : callsOf [] = [] := rfl

@[simp] theorem callsOf_append (L L' : List UslEntry) :
    callsOf (L ++ L') = callsOf L ++ callsOf L' := List.filterMap_append

@[simp] theorem callsOf_issue (id : ℕ) (call : UslCall) (pb : UsbPB) (L : List UslEntry) :
    callsOf (.issue id call pb :: L) = call :: callsOf L := rfl

@[simp] theorem callsOf_done (id : ℕ) (pb : UsbPB) (L : List UslEntry) :
    callsOf (.done id pb :: L) = callsOf L := rfl

@[simp] theorem callsOf_clearStall (pipe : ℕ) (L : List UslEntry) :
    callsOf (.clearStall pipe :: L) = callsOf L := rfl

@[simp] theorem callsOf_stop (L : List UslEntry) : callsOf (.stop :: L) = callsOf L := rfl

/-- Call number `n` of a connection. -/
def callSeq : ℕ → UslCall
  | 0 => .allocMem
  | 1 => .configureInterface
  | 2 => .findNextPipe
  | 3 => .allocMem
  | _ + 4 => .bulkRead

theorem callSeq_eq_bulkRead {n : ℕ} : callSeq n = .bulkRead ↔ 4 ≤ n := by
  match n with
  | 0 | 1 | 2 | 3 => exact iff_of_false (by decide) (by decide)
  | n + 4 => exact iff_of_true rfl (Nat.le_add_left 4 n)

/-- What the reads are made with. -/
structure ReadSetup where
  pipe : ℕ
  maxPacketSize : ℕ
  buffer : ℕ

/-- A parameter block that call number `n` may be issued with. -/
def ReadSetup.Admits (s : ReadSetup) (n : ℕ) (pb : UsbPB) : Prop :=
  (n = 3 → pb.usbReqCount = s.maxPacketSize + (readAlignment - 1)) ∧
    (4 ≤ n → pb.usbReference = s.pipe ∧ pb.usbReqCount = s.maxPacketSize ∧
      pb.usbBuffer = s.buffer)

instance (s : ReadSetup) (n : ℕ) (pb : UsbPB) : Decidable (s.Admits n pb) :=
  inferInstanceAs (Decidable (_ ∧ _))

/-- What a success of the last of `made` calls obtains. -/
def ReadSetup.collect (s : ReadSetup) (made : ℕ) (pb : UsbPB) : ReadSetup :=
  if made = 3 then { s with pipe := pb.usbReference, maxPacketSize := pb.wValue }
  else if made = 4 then { s with buffer := alignUp pb.usbBuffer }
  else s

/-! ## The automaton -/

inductive StagePhase where
  /-- the next call may be issued -/
  | ready
  | waiting (id : ℕ) (call : UslCall)
  /-- a read ended with a stall -/
  | stalled
  /-- a call ended with an error -/
  | failed
  | stopped
deriving DecidableEq, Repr

/-- A connection that has made `made` calls. -/
structure StageOrder where
  made : ℕ
  phase : StagePhase
  setup : ReadSetup

namespace StageOrder

/-- A connection at its beginning. -/
def start : StageOrder := ⟨0, .ready, ⟨0, 0, 0⟩⟩

/-- The phase that a completion leaves. -/
def completed (p : StageOrder) (call : UslCall) (pb : UsbPB) : StageOrder :=
  if pb.usbStatus = usbNoErr then ⟨p.made, .ready, p.setup.collect p.made pb⟩
  else if call = .bulkRead ∧ pb.usbStatus = usbPipeStalledError then { p with phase := .stalled }
  else { p with phase := .failed }

/-- One entry; none if it is out of order. -/
def step (p : StageOrder) (e : UslEntry) : Option StageOrder :=
  match p.phase, e with
  | .ready, .issue id call pb =>
    if call = callSeq p.made ∧ p.setup.Admits p.made pb then
      some ⟨p.made + 1, .waiting id call, p.setup⟩
    else none
  | .waiting id call, .done id' pb => if id' = id then some (p.completed call pb) else none
  | .stalled, .clearStall pipe =>
    if pipe = p.setup.pipe then some { p with phase := .ready } else none
  | .stalled, .stop => none
  | _, .stop => some { p with phase := .stopped }
  | _, _ => none

/-- The connection after a log. -/
abbrev run : StageOrder → List UslEntry → Option StageOrder := runEvents step

section
variable {p p' : StageOrder}

theorem step_issue {id : ℕ} {call : UslCall} {pb : UsbPB}
    (h : p.step (.issue id call pb) = some p') :
    p.phase = .ready ∧ call = callSeq p.made ∧ p.setup.Admits p.made pb ∧
      p' = ⟨p.made + 1, .waiting id call, p.setup⟩ := by
  obtain ⟨made, phase, setup⟩ := p
  cases phase with
  | ready =>
    simp only [step] at h
    split_ifs at h with hok
    exact ⟨rfl, hok.1, hok.2, (Option.some.inj h).symm⟩
  | _ => cases h

theorem step_done {id : ℕ} {pb : UsbPB} (h : p.step (.done id pb) = some p') :
    ∃ call, p.phase = .waiting id call ∧ p' = p.completed call pb := by
  obtain ⟨made, phase, setup⟩ := p
  cases phase with
  | waiting id' call =>
    simp only [step] at h
    split_ifs at h with hid
    exact ⟨call, by rw [hid], (Option.some.inj h).symm⟩
  | _ => cases h

theorem step_clearStall {pipe : ℕ} (h : p.step (.clearStall pipe) = some p') :
    p.phase = .stalled ∧ pipe = p.setup.pipe ∧ p' = { p with phase := .ready } := by
  obtain ⟨made, phase, setup⟩ := p
  cases phase with
  | stalled =>
    simp only [step] at h
    split_ifs at h with hpipe
    exact ⟨rfl, hpipe, (Option.some.inj h).symm⟩
  | _ => cases h

theorem step_stop (h : p.step .stop = some p') : p' = { p with phase := .stopped } := by
  obtain ⟨made, phase, setup⟩ := p
  cases phase with
  | stalled => cases h
  | _ => exact (Option.some.inj h).symm

end

/-! ## Accepted logs -/

/-- The last entries of a log are a call and its success, or a read, its stall and the
    clearing of the stall. -/
inductive WellDone : List UslEntry → Prop
  | success (L : List UslEntry) (id : ℕ) (call : UslCall) (pb pb' : UsbPB)
      (h : pb'.usbStatus = usbNoErr) : WellDone (L ++ [.issue id call pb, .done id pb'])
  | stall (L : List UslEntry) (id : ℕ) (pb pb' : UsbPB)
      (h : pb'.usbStatus = usbPipeStalledError) :
      WellDone (L ++ [.issue id .bulkRead pb, .done id pb', .clearStall pb.usbReference])

/-- The connection's own `USBFindNextPipe` gave the pipe and the packet size. -/
def FoundBy (L : List UslEntry) (s : ReadSetup) : Prop :=
  ∃ L₁ id pb pb' L₂, L = L₁ ++ .issue id .findNextPipe pb :: .done id pb' :: L₂ ∧
    callsOf L₁ = [.allocMem, .configureInterface] ∧ pb'.usbStatus = usbNoErr ∧
    s.pipe = pb'.usbReference ∧ s.maxPacketSize = pb'.wValue

/-- The connection's own second `USBAllocMem` gave the block of the aligned buffer, which
    has room for a packet. -/
def BufferBy (L : List UslEntry) (s : ReadSetup) : Prop :=
  ∃ L₁ id pb pb' L₂, L = L₁ ++ .issue id .allocMem pb :: .done id pb' :: L₂ ∧
    callsOf L₁ = [.allocMem, .configureInterface, .findNextPipe] ∧ pb'.usbStatus = usbNoErr ∧
    pb.usbReqCount = s.maxPacketSize + (readAlignment - 1) ∧ s.buffer = alignUp pb'.usbBuffer

theorem FoundBy.append {L : List UslEntry} {s : ReadSetup} (h : FoundBy L s) (e : UslEntry) :
    FoundBy (L ++ [e]) s := by
  obtain ⟨L₁, id, pb, pb', L₂, rfl, hrest⟩ := h
  exact ⟨L₁, id, pb, pb', L₂ ++ [e], by simp only [List.append_assoc, List.cons_append], hrest⟩

theorem BufferBy.append {L : List UslEntry} {s : ReadSetup} (h : BufferBy L s) (e : UslEntry) :
    BufferBy (L ++ [e]) s := by
  obtain ⟨L₁, id, pb, pb', L₂, rfl, hrest⟩ := h
  exact ⟨L₁, id, pb, pb', L₂ ++ [e], by simp only [List.append_assoc, List.cons_append], hrest⟩

/-- What the end of a log looks like in a phase. -/
def Ends (p : StageOrder) (L : List UslEntry) : Prop :=
  match p.phase with
  | .ready => L = [] ∨ WellDone L
  | .waiting id call => ∃ L₁ n pb, L = L₁ ++ [.issue id call pb] ∧ p.made = n + 1 ∧
      call = callSeq n ∧ p.setup.Admits n pb
  | .stalled => ∃ L₁ id pb pb', L = L₁ ++ [.issue id .bulkRead pb, .done id pb'] ∧
      pb'.usbStatus = usbPipeStalledError ∧ pb.usbReference = p.setup.pipe
  | .failed | .stopped => True

/-- The calls that completed well. -/
def past (p : StageOrder) : ℕ := if p.phase = .ready then p.made else p.made - 1

/-- What the automaton knows of the log it has read. -/
structure Explains (p : StageOrder) (L : List UslEntry) : Prop where
  calls : callsOf L = (List.range p.made).map callSeq
  ends : p.Ends L
  found : 3 ≤ p.past → FoundBy L p.setup
  buffer : 4 ≤ p.past → BufferBy L p.setup

theorem explains_start : start.Explains [] :=
  ⟨rfl, .inl rfl, fun h => absurd h (by decide), fun h => absurd h (by decide)⟩

/-! ### One entry -/

section
variable {p p' : StageOrder} {L : List UslEntry}

theorem Explains.issue {id : ℕ} {call : UslCall} {pb : UsbPB} (h : p.Explains L)
    (hs : p.step (.issue id call pb) = some p') : p'.Explains (L ++ [.issue id call pb]) := by
  obtain ⟨hphase, hcall, hadmits, rfl⟩ := step_issue hs
  have hpast : p.past = p.made := if_pos hphase
  refine ⟨?_, ⟨L, p.made, pb, rfl, rfl, hcall, hadmits⟩, fun h3 => ?_, fun h4 => ?_⟩
  · simp [h.calls, hcall, List.range_succ]
  · exact (h.found (hpast ▸ h3)).append _
  · exact (h.buffer (hpast ▸ h4)).append _

/-- The call that was outstanding, with the calls before it. -/
theorem Explains.waiting {id : ℕ} {call : UslCall} (h : p.Explains L)
    (hphase : p.phase = .waiting id call) :
    ∃ L₁ n pb, L = L₁ ++ [.issue id call pb] ∧ p.made = n + 1 ∧ call = callSeq n ∧
      p.setup.Admits n pb ∧ callsOf L₁ = (List.range n).map callSeq := by
  have hends := h.ends
  rw [Ends, hphase] at hends
  obtain ⟨L₁, n, pb, rfl, hmade, hcall, hadmits⟩ := hends
  refine ⟨L₁, n, pb, rfl, hmade, hcall, hadmits, ?_⟩
  have hcalls := h.calls
  rw [hmade, List.range_succ, List.map_append, callsOf_append] at hcalls
  exact (List.append_inj' hcalls rfl).1

theorem Explains.success {id : ℕ} {call : UslCall} {pb : UsbPB} (h : p.Explains L)
    (hphase : p.phase = .waiting id call) (hok : pb.usbStatus = usbNoErr) :
    Explains ⟨p.made, .ready, p.setup.collect p.made pb⟩ (L ++ [.done id pb]) := by
  obtain ⟨L₁, n, pb₀, rfl, hmade, rfl, hadmits, hcalls⟩ := h.waiting hphase
  have hpast : p.past = n := by rw [past, hphase, hmade]; rfl
  have hlog : L₁ ++ [.issue id (callSeq n) pb₀] ++ [UslEntry.done id pb] =
      L₁ ++ [.issue id (callSeq n) pb₀, .done id pb] := List.append_assoc ..
  refine ⟨?_, .inr (hlog ▸ .success L₁ id _ pb₀ pb hok), ?_, ?_⟩
  · rw [callsOf_append, h.calls]
    exact List.append_nil _
  · intro h3
    replace h3 : 3 ≤ p.made := h3
    by_cases hfind : p.made = 3
    · obtain rfl : n = 2 := by omega
      rw [ReadSetup.collect, if_pos hfind, hlog]
      exact ⟨L₁, id, pb₀, pb, [], rfl, hcalls, hok, rfl, rfl⟩
    · obtain ⟨L₂, i, q, q', L₃, hL, hbefore, hstatus, hpipe, hsize⟩ := h.found (by omega)
      have hsame : (p.setup.collect p.made pb).pipe = p.setup.pipe ∧
          (p.setup.collect p.made pb).maxPacketSize = p.setup.maxPacketSize := by
        rw [ReadSetup.collect, if_neg hfind]
        split_ifs <;> exact ⟨rfl, rfl⟩
      exact FoundBy.append ⟨L₂, i, q, q', L₃, hL, hbefore, hstatus, hsame.1.trans hpipe,
        hsame.2.trans hsize⟩ _
  · intro h4
    replace h4 : 4 ≤ p.made := h4
    by_cases hbuffer : p.made = 4
    · obtain rfl : n = 3 := by omega
      rw [ReadSetup.collect, if_neg (by omega), if_pos hbuffer, hlog]
      exact ⟨L₁, id, pb₀, pb, [], rfl, hcalls, hok, hadmits.1 rfl, rfl⟩
    · have hsame : p.setup.collect p.made pb = p.setup := by
        rw [ReadSetup.collect, if_neg (by omega), if_neg hbuffer]
      rw [hsame]
      exact (h.buffer (by omega)).append _

theorem Explains.done {id : ℕ} {pb : UsbPB} (h : p.Explains L)
    (hs : p.step (.done id pb) = some p') : p'.Explains (L ++ [.done id pb]) := by
  obtain ⟨call, hphase, rfl⟩ := step_done hs
  have hcalls : callsOf (L ++ [.done id pb]) = (List.range p.made).map callSeq := by
    rw [callsOf_append, h.calls]
    exact List.append_nil _
  have hpast : p.past = p.made - 1 := by rw [past, hphase]; rfl
  unfold completed
  split_ifs with hok hstall
  · exact h.success hphase hok
  · obtain ⟨L₁, n, pb₀, rfl, hmade, rfl, hadmits, -⟩ := h.waiting hphase
    refine ⟨hcalls, ?_, fun h3 => (h.found (hpast ▸ h3)).append _,
      fun h4 => (h.buffer (hpast ▸ h4)).append _⟩
    refine ⟨L₁, id, pb₀, pb, ?_, hstall.2, (hadmits.2 (callSeq_eq_bulkRead.1 hstall.1)).1⟩
    rw [hstall.1, List.append_assoc]
    rfl
  · exact ⟨hcalls, trivial, fun h3 => (h.found (hpast ▸ h3)).append _,
      fun h4 => (h.buffer (hpast ▸ h4)).append _⟩

theorem Explains.clearStall {pipe : ℕ} (h : p.Explains L)
    (hs : p.step (.clearStall pipe) = some p') : p'.Explains (L ++ [.clearStall pipe]) := by
  obtain ⟨hphase, rfl, rfl⟩ := step_clearStall hs
  have hends := h.ends
  rw [Ends, hphase] at hends
  obtain ⟨L₁, id, pb, pb', rfl, hstall, hpipe⟩ := hends
  -- only a read is followed by a stall, so that the setup is complete
  have hlast : UslCall.bulkRead ∈ (List.range p.made).map callSeq := by
    rw [← h.calls]
    simp
  obtain ⟨n, hn, hread⟩ := List.mem_map.1 hlast
  have hmade : 4 < p.made := (callSeq_eq_bulkRead.1 hread).trans_lt (List.mem_range.1 hn)
  have hpast : 4 ≤ p.past := by
    rw [past, hphase]
    exact Nat.le_sub_one_of_lt hmade
  refine ⟨by simpa using h.calls, .inr ?_, fun _ => (h.found (by omega)).append _,
    fun _ => (h.buffer hpast).append _⟩
  rw [← hpipe, List.append_assoc]
  exact .stall L₁ id pb pb' hstall

theorem Explains.stop (h : p.Explains L) (hs : p.step .stop = some p') :
    p'.Explains (L ++ [.stop]) := by
  obtain rfl := step_stop hs
  have hpast : p.made - 1 ≤ p.past := by
    rw [past]
    split_ifs
    · exact Nat.sub_le ..
    · exact le_rfl
  exact ⟨by simpa using h.calls, trivial, fun h3 => (h.found (h3.trans hpast)).append _,
    fun h4 => (h.buffer (h4.trans hpast)).append _⟩

end

/-- **One entry** of the log. -/
theorem Explains.step {p p' : StageOrder} {L : List UslEntry} {e : UslEntry} (h : p.Explains L)
    (hs : p.step e = some p') : p'.Explains (L ++ [e]) := by
  cases e with
  | issue id call pb => exact h.issue hs
  | done id pb => exact h.done hs
  | clearStall pipe => exact h.clearStall hs
  | stop => exact h.stop hs

/-! ### Whole logs -/

section
variable {p p' : StageOrder} {L L' : List UslEntry}

theorem run_cons {e : UslEntry} : p.run (e :: L) = (p.step e).bind fun p' => p'.run L := rfl

theorem run_append : p.run (L ++ L') = (p.run L).bind fun p' => p'.run L' := by
  induction L generalizing p with
  | nil => rfl
  | cons e L ih =>
    rw [List.cons_append, run_cons, run_cons, Option.bind_assoc]
    exact congrArg _ (funext fun p' => ih)

/-- A log that is accepted, at one of its entries. -/
theorem run_split {e : UslEntry} (h : p.run (L ++ e :: L') = some p') :
    ∃ p₁ p₂, p.run L = some p₁ ∧ p₁.step e = some p₂ ∧ p₂.run L' = some p' := by
  rw [run_append, Option.bind_eq_some_iff] at h
  obtain ⟨p₁, h₁, h⟩ := h
  rw [run_cons, Option.bind_eq_some_iff] at h
  obtain ⟨p₂, h₂, h⟩ := h
  exact ⟨p₁, p₂, h₁, h₂, h⟩

theorem Explains.run (h : p.Explains L) (hs : p.run L' = some p') : p'.Explains (L ++ L') := by
  induction L' generalizing p L with
  | nil =>
    obtain rfl := Option.some.inj hs
    rw [List.append_nil]
    exact h
  | cons e L' ih =>
    obtain ⟨p₁, h₁, hrest⟩ := Option.bind_eq_some_iff.1 hs
    have hrun := ih (h.step h₁) hrest
    rwa [List.append_assoc] at hrun

/-- **Accepted logs are explained.** -/
theorem explains_of_run (h : start.run L = some p) : p.Explains L := by
  have hL := explains_start.run h
  rwa [List.nil_append] at hL

/-- **Before each call but the first**, the previous one completed well. -/
theorem accepted_call (h : start.run L = some p) {L₁ L₂ : List UslEntry} {id : ℕ} {call : UslCall}
    {pb : UsbPB} (hL : L = L₁ ++ .issue id call pb :: L₂) : L₁ = [] ∨ WellDone L₁ := by
  subst hL
  obtain ⟨p₁, p₂, h₁, hs, -⟩ := run_split h
  have hends := (explains_of_run h₁).ends
  rw [Ends, (step_issue hs).1] at hends
  exact hends

/-- **Each read** uses what the connection's own calls obtained. -/
theorem accepted_read (h : start.run L = some p) {L₁ L₂ : List UslEntry} {id : ℕ} {pb : UsbPB}
    (hL : L = L₁ ++ .issue id .bulkRead pb :: L₂) :
    ∃ s : ReadSetup, FoundBy L₁ s ∧ BufferBy L₁ s ∧ pb.usbReference = s.pipe ∧
      pb.usbReqCount = s.maxPacketSize ∧ pb.usbBuffer = s.buffer := by
  subst hL
  obtain ⟨p₁, p₂, h₁, hs, -⟩ := run_split h
  obtain ⟨hphase, hread, hadmits, -⟩ := step_issue hs
  have hexp := explains_of_run h₁
  have hmade : 4 ≤ p₁.made := callSeq_eq_bulkRead.1 hread.symm
  have hpast : p₁.past = p₁.made := if_pos hphase
  exact ⟨p₁.setup, hexp.found (by omega), hexp.buffer (by omega), hadmits.2 hmade⟩

/-- A stopped connection makes no calls. -/
theorem callsOf_stopped (hp : p.phase = .stopped) (h : p.run L = some p') : callsOf L = [] := by
  induction L generalizing p with
  | nil => rfl
  | cons e L ih =>
    obtain ⟨p₁, h₁, hrest⟩ := Option.bind_eq_some_iff.1 h
    cases e with
    | issue id call pb => exact absurd (hp.symm.trans (step_issue h₁).1) (by decide)
    | done id pb =>
      obtain ⟨call, hphase, -⟩ := step_done h₁
      exact absurd (hp.symm.trans hphase) (by simp)
    | clearStall pipe => exact absurd (hp.symm.trans (step_clearStall h₁).1) (by decide)
    | stop =>
      obtain rfl := step_stop h₁
      exact ih rfl hrest

/-- **After a stop** there are no calls. -/
theorem accepted_stop (h : start.run L = some p) {L₁ L₂ : List UslEntry}
    (hL : L = L₁ ++ .stop :: L₂) : callsOf L₂ = [] := by
  subst hL
  obtain ⟨p₁, p₂, -, hs, hrest⟩ := run_split h
  obtain rfl := step_stop hs
  exact callsOf_stopped rfl hrest

end

end StageOrder

end Usbmidi9
