/-
  USBMIDI9 — a task-level drain against read completions.

  `oms_rx_drain_all` dequeues at task time while a read completion may run
  between any two of its memory accesses; the completion enqueues and, through
  the push hook, drains the same ring until it is empty.  `drainStep` is
  `um9_ring_dequeue` under the outer drain loop, one read or write at a time;
  `readCompletion` is the completion.

  * `dequeue_steps`: undisturbed, the steps are `um9RingDequeue`;
  * `DrainOk` is the condition on a completion: between the outer read of the
    tail and that of the head it stores nothing, and from there to the store of
    the head it carries no data;
  * `drain_safe`: under the condition the used count never exceeds the size and
    every byte is handed out at most once.  `drain_unsafe` is a run without it.

  Bytes are numbers that tell them apart, so the ring stores identities.
-/
import Usbmidi9.Classic.Access
import Usbmidi9.Lib.Reach

namespace Usbmidi9

/-- `kUSBMIDI9OMSDequeueChunk`. -/
abbrev dequeueChunk : ℕ := 64

/-- Where the outer drain loop is inside `um9_ring_dequeue`. -/
inductive DrainPhase where
  /-- about to call `um9_ring_dequeue` -/
  | idle
  /-- `*tail` is read -/
  | gotTail (tail : ℕ)
  /-- `*head` is read and the number of bytes to copy is not zero -/
  | gotUsed (n : ℕ)
  /-- `head_off` is read, the bytes of `dst` are copied -/
  | copying (n headOff : ℕ) (dst : List ℕ)
  /-- everything is copied and `*head` is read again -/
  | gotHead (n : ℕ) (dst : List ℕ) (head : ℕ)
  /-- the ring was empty and the loop has ended -/
  | done
deriving DecidableEq, Repr

/-- The ring, the outer drain loop, the bytes handed to drain loops, and the
    next identity. -/
structure DrainState where
  ring : Ring ℕ
  phase : DrainPhase
  handed : List ℕ
  next : ℕ

/-- One memory access of the outer drain loop. -/
def drainStep (s : DrainState) : DrainState :=
  match s.phase, s.ring.buf with
  | .idle, some _ => { s with phase := .gotTail s.ring.tail }
  | .gotTail tail, some _ =>
    let used := sub32 tail s.ring.head
    let n := if dequeueChunk < used then dequeueChunk else used
    { s with phase := if n = 0 then .done else .gotUsed n }
  | .gotUsed n, some _ => { s with phase := .copying n (s.ring.head &&& (ringSize - 1)) [] }
  | .copying n headOff dst, some buf =>
    if dst.length < n then
      let avail1 := ringSize - headOff
      let slot := if dst.length < avail1 then headOff + dst.length else dst.length - avail1
      { s with phase := .copying n headOff (dst ++ [buf slot]) }
    else { s with phase := .gotHead n dst s.ring.head }
  | .gotHead n dst head, some _ =>
    { s with
      ring := { s.ring with head := (head + n) % u32Size }
      phase := .idle
      handed := s.handed ++ dst }
  | .done, some _ => { s with phase := .idle }
  | _, none => { s with phase := .done }

/-- The drain that the push hook runs inside a completion. -/
def hookDrain (r : Ring ℕ) (handed : List ℕ) : Ring ℕ × List ℕ :=
  drainRing ringSize dequeueChunk (· ++ ·) (um9RingUsed ringSize r + 1) r handed

/-- A read completion that carries `count` new bytes; one that carries none does
    not touch the ring and calls no hook. -/
def readCompletion (s : DrainState) (count : ℕ) : DrainState :=
  if count = 0 then s
  else
    let r := (um9RingEnqueue ringSize s.ring ((List.range count).map (s.next + ·))).1
    let d := hookDrain r s.handed
    { s with ring := d.1, handed := d.2, next := s.next + count }

/-- What can happen next. -/
inductive DrainEvent where
  | step
  | completion (count : ℕ)
deriving DecidableEq, Repr

/-- One event. -/
def drainSys (s : DrainState) : DrainEvent → Option DrainState
  | .step => some (drainStep s)
  | .completion count => some (readCompletion s count)

/-- The condition on completions: one that falls between the outer reads of tail
    and head finds the ring full or carries nothing, and one that falls between
    the read and the store of head carries nothing. -/
def DrainOk (s : DrainState) : DrainEvent → Prop
  | .step => True
  | .completion count => match s.phase with
    | .idle | .done => True
    | .gotTail _ => count = 0 ∨ sub32 s.ring.tail s.ring.head = ringSize
    | .gotUsed _ | .copying .. | .gotHead .. => count = 0

/-- A drain about to start on a ring whose bytes are told apart. -/
structure DrainStart (s : DrainState) : Prop where
  wf : s.ring.Wf ringSize
  phase : s.phase = .idle
  handed : s.handed = []
  nodup : (s.ring.queue ringSize).Nodup
  fresh : ∀ x ∈ s.ring.queue ringSize, x < s.next

/-! ## Undisturbed runs -/

/-- The copy. -/
theorem drainSteps_copy {s : DrainState} {buf : ℕ → ℕ} (hb : s.ring.buf = some buf)
    (headOff n : ℕ) :
    drainStep^[n] { s with phase := .copying n headOff [] } =
      { s with
        phase := .copying n headOff ((List.range n).map (buf <| readSlot ringSize headOff ·)) } := by
  refine iterate_append (fun dst => { s with phase := .copying n headOff dst }) ?_ le_rfl
  intro dst hdst
  simp only [drainStep, hb, if_pos hdst, readSlot]

/-- **Undisturbed, the memory accesses are `um9_ring_dequeue`.** -/
theorem dequeue_steps {s : DrainState} (hp : s.phase = .idle) {buf : ℕ → ℕ}
    (hb : s.ring.buf = some buf) :
    let d := um9RingDequeue ringSize s.ring dequeueChunk
    ∃ k, drainStep^[k] s =
      { s with ring := d.1, handed := s.handed ++ d.2, phase := if d.2 = [] then .done else .idle } := by
  obtain ⟨ring, phase, handed, next⟩ := s
  obtain rfl : phase = .idle := hp
  obtain ⟨_, head, tail⟩ := ring
  obtain rfl : _ = some buf := hb
  set n := if dequeueChunk < sub32 tail head then dequeueChunk else sub32 tail head with hn
  have hd := um9RingDequeue_slots ringSize_ok.isPowerOfTwo (by decide) buf head tail hn.symm
  rcases Nat.eq_zero_or_pos n with h0 | hpos
  · refine ⟨2, ?_⟩
    simp only [hd, h0, Function.iterate_succ_apply, Function.iterate_zero_apply, drainStep, ← hn,
      if_true, List.append_nil]
  · refine ⟨n + 1 + 1 + 3, ?_⟩
    rw [Function.iterate_add_apply, Function.iterate_succ_apply', Function.iterate_succ_apply']
    have h3 : drainStep^[3] ⟨⟨some buf, head, tail⟩, .idle, handed, next⟩ =
        ⟨⟨some buf, head, tail⟩, .copying n (head &&& (ringSize - 1)) [], handed, next⟩ := by
      simp only [Function.iterate_succ_apply, Function.iterate_zero_apply, drainStep, ← hn,
        if_neg hpos.ne']
    have hcopy := drainSteps_copy (s := ⟨⟨some buf, head, tail⟩, .idle, handed, next⟩) rfl
      (head &&& (ringSize - 1)) n
    have hne : (List.range n).map (buf <| readSlot ringSize (head &&& (ringSize - 1)) ·) ≠ [] := by
      simp [hpos.ne']
    rw [h3, hcopy]
    simp only [drainStep, List.length_map, List.length_range, lt_irrefl, if_false, hd,
      if_neg hpos.ne', if_neg hne]

/-! ## The invariant -/

/-- What the outer loop has read is what the ring still holds. -/
def DrainPhase.Ok (r : Ring ℕ) : DrainPhase → Prop
  | .idle | .done => True
  | .gotTail tail => tail = r.tail
  | .gotUsed n => n ≤ (r.queue ringSize).length
  | .copying n headOff dst => n ≤ (r.queue ringSize).length ∧ headOff = r.head % ringSize ∧
      dst.length ≤ n ∧ dst = (r.queue ringSize).take dst.length
  | .gotHead n dst head => n ≤ (r.queue ringSize).length ∧ head = r.head ∧
      dst = (r.queue ringSize).take n

/-- The invariant: what was handed out and what is stored are distinct bytes. -/
structure DrainInv (s : DrainState) : Prop where
  wf : s.ring.Wf ringSize
  phase : s.phase.Ok s.ring
  nodup : (s.handed ++ s.ring.queue ringSize).Nodup
  fresh : ∀ x ∈ s.handed ++ s.ring.queue ringSize, x < s.next

theorem DrainStart.inv {s : DrainState} (h : DrainStart s) : DrainInv s where
  wf := h.wf
  phase := by rw [h.phase]; trivial
  nodup := by rw [h.handed]; exact h.nodup
  fresh := by rw [h.handed]; exact h.fresh

/-- **A memory access keeps the invariant.** -/
theorem drainStep_inv {s : DrainState} (h : DrainInv s) : DrainInv (drainStep s) := by
  obtain ⟨buf, hb⟩ := Option.isSome_iff_exists.1 h.wf.buf
  have hlen := Ring.length_queue h.wf
  have hphase := h.phase
  rcases hp : s.phase with _ | tail | n | ⟨n, headOff, dst⟩ | ⟨n, dst, head⟩ | _ <;>
    rw [hp] at hphase <;> simp only [drainStep, hp, hb]
  case idle => exact ⟨h.wf, rfl, h.nodup, h.fresh⟩
  case gotTail =>
    obtain rfl : tail = s.ring.tail := hphase
    refine ⟨h.wf, ?_, h.nodup, h.fresh⟩
    by_cases hn : (if dequeueChunk < sub32 s.ring.tail s.ring.head then dequeueChunk
        else sub32 s.ring.tail s.ring.head) = 0
    · simp only [hn, if_true, DrainPhase.Ok]
    · simp only [hn, if_false, DrainPhase.Ok, hlen]
      split_ifs <;> omega
  case gotUsed =>
    exact ⟨h.wf, ⟨hphase, ringSize_ok.mask _, Nat.zero_le _, List.take_zero.symm⟩,
      h.nodup, h.fresh⟩
  case copying =>
    obtain ⟨hn, rfl, hd, hdst⟩ := hphase
    have hsize := Ring.length_queue_le h.wf
    by_cases hlt : dst.length < n
    · rw [if_pos hlt, copy_slot (by omega)]
      refine ⟨h.wf, ⟨hn, rfl, by rw [List.length_append]; exact hlt, ?_⟩, h.nodup, h.fresh⟩
      rw [List.length_append, List.length_singleton, queue_take_succ hb (by omega), ← hdst]
    · rw [if_neg hlt]
      obtain rfl : dst.length = n := by omega
      exact ⟨h.wf, ⟨hn, rfl, hdst⟩, h.nodup, h.fresh⟩
  case gotHead =>
    obtain ⟨hn, rfl, rfl⟩ := hphase
    obtain ⟨hw, hq⟩ := h.wf.dequeued ringSize_ok hn
    rw [hb] at hw hq
    have happ : (s.handed ++ (s.ring.queue ringSize).take n) ++ (s.ring.queue ringSize).drop n =
        s.handed ++ s.ring.queue ringSize := by
      rw [List.append_assoc, List.take_append_drop]
    refine ⟨hw, trivial, ?_, ?_⟩
    · rw [hq, happ]; exact h.nodup
    · rw [hq, happ]; exact h.fresh
  case done => exact ⟨h.wf, trivial, h.nodup, h.fresh⟩

/-- The hook's drain hands out the queue. -/
theorem hookDrain_spec {r : Ring ℕ} (h : r.Wf ringSize) (handed : List ℕ) :
    (hookDrain r handed).1.Wf ringSize ∧ (hookDrain r handed).1.queue ringSize = [] ∧
      (hookDrain r handed).1.tail = r.tail ∧
      (hookDrain r handed).2 = handed ++ r.queue ringSize := by
  obtain ⟨r', chunks, e1, e2, e3, e4, e5, -⟩ := drainRing_spec ringSize_ok
    (show 0 < dequeueChunk by decide) (· ++ ·) h (n := um9RingUsed ringSize r + 1)
    (by rw [um9RingUsed_eq ringSize_ok h]; omega) handed
  have hfold : chunks.foldl (· ++ ·) handed = handed ++ chunks.flatten := by
    simpa using @List.foldl_append_eq_append _ _ chunks id handed
  simp only [hookDrain, e1]
  exact ⟨e2, e3, e4, by rw [hfold, e5]⟩

/-- Fresh bytes are told apart from all others. -/
theorem fresh_nodup {l : List ℕ} {next : ℕ} (hl : l.Nodup) (hlt : ∀ x ∈ l, x < next) (count k : ℕ) :
    (l ++ ((List.range count).map (next + ·)).take k).Nodup ∧
      ∀ x ∈ l ++ ((List.range count).map (next + ·)).take k, x < next + count := by
  have hnew : ∀ x ∈ ((List.range count).map (next + ·)).take k, next ≤ x ∧ x < next + count := by
    intro x hx
    obtain ⟨i, hi, rfl⟩ := List.mem_map.1 (List.mem_of_mem_take hx)
    have := List.mem_range.1 hi
    omega
  have hnd : (((List.range count).map (next + ·)).take k).Nodup :=
    (List.nodup_range.map fun _ _ h => Nat.add_left_cancel h).sublist (List.take_sublist _ _)
  refine ⟨hl.append hnd ?_, ?_⟩
  · intro x hx hx'
    exact absurd (hlt x hx) (by have := (hnew x hx').1; omega)
  · intro x hx
    rcases List.mem_append.1 hx with hx | hx
    · have := hlt x hx; omega
    · exact (hnew x hx).2

/-- **A completion keeps the invariant** where the condition lets it happen. -/
theorem readCompletion_inv {s : DrainState} (h : DrainInv s) {count : ℕ}
    (hok : DrainOk s (.completion count)) : DrainInv (readCompletion s count) := by
  rcases Nat.eq_zero_or_pos count with rfl | hpos
  · simpa only [readCompletion, if_true] using h
  set new := (List.range count).map (s.next + ·) with hnew
  obtain ⟨hw, hq, -, -⟩ := um9RingEnqueue_spec ringSize_ok h.wf new
  obtain ⟨d1, d2, d3, d4⟩ := hookDrain_spec hw s.handed
  rw [hq, ← List.append_assoc] at d4
  obtain ⟨f1, f2⟩ := fresh_nodup h.nodup h.fresh count
    (ringSize - (s.ring.queue ringSize).length)
  rw [readCompletion, if_neg hpos.ne']
  refine ⟨d1, ?_, ?_, ?_⟩
  · -- only the phases before the outer read of the head are left
    show s.phase.Ok _
    have hphase := h.phase
    revert hok hphase
    unfold DrainOk
    cases s.phase with
    | idle | done => exact fun _ _ => trivial
    | gotTail tail =>
      intro hok hphase
      have hfull := hok.resolve_left hpos.ne'
      have he := um9RingEnqueue_full ringSize_ok h.wf hfull new
      show tail = (hookDrain _ _).1.tail
      rw [d3, he]; exact hphase
    | gotUsed | copying | gotHead => exact fun hok => absurd hok hpos.ne'
  · simp only [← hnew, d2, d4, List.append_nil]; exact f1
  · simp only [← hnew, d2, d4, List.append_nil]; exact f2

/-! ## Runs -/

theorem drainSys_inv {s s' : DrainState} {e : DrainEvent} (h : DrainInv s) (hok : DrainOk s e)
    (hs : drainSys s e = some s') : DrainInv s' := by
  cases e with
  | step => exact Option.some.inj hs ▸ drainStep_inv h
  | completion count => exact Option.some.inj hs ▸ readCompletion_inv h hok

/-- The outer loop can always go on. -/
theorem reach_steps {ok : DrainState → DrainEvent → Prop} (hok : ∀ s, ok s .step)
    {s₀ s : DrainState} (h : Reach drainSys ok s₀ s) (k : ℕ) :
    Reach drainSys ok s₀ (drainStep^[k] s) := by
  induction k with
  | zero => exact h
  | succ k ih =>
    rw [Function.iterate_succ_apply']
    exact .step ih (hok _) rfl

/-- **A drain that completions respect is safe.**  In every state of every run
    whose completions meet the condition, the used count is at most the size and
    no byte has been handed out twice. -/
theorem drain_safe {s₀ s : DrainState} (h₀ : DrainStart s₀) (h : Reach drainSys DrainOk s₀ s) :
    sub32 s.ring.tail s.ring.head ≤ ringSize ∧ s.handed.Nodup := by
  have hinv := h.inv h₀.inv fun _ _ _ => drainSys_inv
  exact ⟨hinv.wf.used, hinv.nodup.of_append_left⟩

/-- One byte is waiting in the ring. -/
def drainOne : DrainState := ⟨⟨some fun _ => 0, 0, 1⟩, .idle, [], 1⟩

theorem drainOne_start : DrainStart drainOne where
  wf := ⟨rfl, by decide, by decide, by decide⟩
  phase := rfl
  handed := rfl
  nodup := by decide
  fresh := by decide

/-- A completion between two dequeues is within the condition. -/
theorem drain_safe_one : ∃ s, Reach drainSys DrainOk drainOne s ∧ s.handed = [0, 1, 2] ∧
    sub32 s.ring.tail s.ring.head ≤ ringSize ∧ s.handed.Nodup := by
  have h6 : Reach drainSys DrainOk drainOne (drainStep^[6] drainOne) :=
    reach_steps (fun _ => trivial) .refl 6
  have hr : Reach drainSys DrainOk drainOne (readCompletion (drainStep^[6] drainOne) 2) :=
    .step h6 (e := .completion 2) trivial rfl
  exact ⟨_, hr, by decide +kernel, drain_safe drainOne_start hr⟩

/-- **The race.**  A completion that carries a byte between the outer copy and
    the outer re-read of the head leaves the head past the tail, and the copied
    byte is handed out twice. -/
theorem drain_unsafe :
    ¬∀ s₀ s, DrainStart s₀ → Reach drainSys (fun _ _ => True) s₀ s →
      sub32 s.ring.tail s.ring.head ≤ ringSize ∧ s.handed.Nodup := by
  intro h
  have h4 : Reach drainSys (fun _ _ => True) drainOne (drainStep^[4] drainOne) :=
    reach_steps (fun _ => trivial) .refl 4
  have hc : Reach drainSys (fun _ _ => True) drainOne (readCompletion (drainStep^[4] drainOne) 1) :=
    .step h4 (e := .completion 1) trivial rfl
  have hr := reach_steps (fun _ => trivial) hc 2
  have hused := (h _ _ drainOne_start hr).1
  exact absurd hused (by decide +kernel)

end Usbmidi9
