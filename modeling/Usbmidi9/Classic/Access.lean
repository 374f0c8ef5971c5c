/-
  USBMIDI9 — dequeues, one memory access at a time, and the completions that may
  fall between any two accesses (`classic/ring.c`, `classic/usb_driver.c`).

  `readCall` is `USBMIDI9DequeueBytes` up to its first access, `readStep` the
  next access of `um9_ring_dequeue`, and `readArrival` a successful read
  completion: `um9_ring_enqueue`, and whatever dequeues the client's event
  callback makes in turn.

  `readSteps_dequeue`: undisturbed, the accesses are `um9RingDequeue`.
-/
import Usbmidi9.Classic.Ring
import Usbmidi9.Lib.Fifo

namespace Usbmidi9

variable {α : Type*}

/-- Where a dequeue is. -/
inductive ReadPhase (α : Type*) where
  | idle
  /-- the arguments are checked -/
  | called (max : ℕ)
  /-- `*tail` is read -/
  | gotTail (max tail : ℕ)
  /-- `*head` is read and the number of bytes to copy is not zero -/
  | gotUsed (n : ℕ)
  /-- `head_off` is read, the bytes of `dst` are copied -/
  | copying (n headOff : ℕ) (dst : List α)
  /-- everything is copied and `*head` is read again -/
  | gotHead (n : ℕ) (dst : List α) (head : ℕ)

/-- A ring, the dequeue in progress, all bytes that dequeues returned, and the
    Event Packets that were received. -/
structure ReadState (α : Type*) where
  ring : Ring α
  phase : ReadPhase α
  taken : List α
  received : List (List α)

/-- The Event Packets of a transfer. -/
def eventPackets : List α → List (List α)
  | a :: b :: c :: d :: rest => [a, b, c, d] :: eventPackets rest
  | _ => []

/-- A dequeue is called. -/
def readCall (size max : ℕ) (s : ReadState α) : ReadState α :=
  if isPowerOfTwo size = false ∨ s.ring.buf.isNone ∨ max = 0 then s
  else { s with phase := .called max }

/-- One memory access of `um9_ring_dequeue`. -/
def readStep (size : ℕ) (s : ReadState α) : ReadState α :=
  match s.phase, s.ring.buf with
  | .called max, some _ => { s with phase := .gotTail max s.ring.tail }
  | .gotTail max tail, some _ =>
    let used := sub32 tail s.ring.head
    let n := if max < used then max else used
    { s with phase := if n = 0 then .idle else .gotUsed n }
  | .gotUsed n, some _ => { s with phase := .copying n (s.ring.head &&& (size - 1)) [] }
  | .copying n headOff dst, some buf =>
    if dst.length < n then
      let avail1 := size - headOff
      let slot := if dst.length < avail1 then headOff + dst.length else dst.length - avail1
      { s with phase := .copying n headOff (dst ++ [buf slot]) }
    else { s with phase := .gotHead n dst s.ring.head }
  | .gotHead n dst head, some _ =>
    { s with
      ring := { s.ring with head := (head + n) % u32Size }
      phase := .idle
      taken := s.taken ++ dst }
  | .idle, some _ => s
  | _, none => { s with phase := .idle }

/-- The dequeues of an event callback, one for each `max`. -/
def hookReads (size : ℕ) : List ℕ → Ring α → Ring α × List α
  | [], r => (r, [])
  | max :: hook, r =>
    let d := um9RingDequeue size r max
    let rest := hookReads size hook d.1
    (rest.1, d.2 ++ rest.2)

/-- A successful read completion; one without bytes calls no event callback. -/
def readArrival (size : ℕ) (s : ReadState α) (data : List α) (hook : List ℕ) : ReadState α :=
  if data = [] then s
  else
    let d := hookReads size hook (um9RingEnqueue size s.ring data).1
    { s with
      ring := d.1
      taken := s.taken ++ d.2
      received := s.received ++ eventPackets data }

inductive ReadEvent (α : Type*) where
  | call (max : ℕ)
  | step
  | completion (data : List α) (hook : List ℕ)

/-- One event; a client makes one dequeue after the other. -/
def readSys (size : ℕ) (s : ReadState α) : ReadEvent α → Option (ReadState α)
  | .call max => match s.phase with
    | .idle => some (readCall size max s)
    | _ => none
  | .step => some (readStep size s)
  | .completion data hook => some (readArrival size s data hook)

/-! ## Undisturbed dequeues -/

/-- The slot of the copy loops' index `i`. -/
def readSlot (size headOff i : ℕ) : ℕ :=
  if i < size - headOff then headOff + i else i - (size - headOff)

/-- The two copies of `um9_ring_dequeue`, index by index. -/
theorem load_readSlot (buf : ℕ → α) (size headOff n : ℕ) :
    (if n ≤ size - headOff then load buf headOff n
      else load buf headOff (size - headOff) ++ load buf 0 (n - (size - headOff))) =
      (List.range n).map (buf <| readSlot size headOff ·) := by
  split_ifs with hle
  · apply List.map_congr_left
    intro i hi
    rw [readSlot, if_pos (by have := List.mem_range.1 hi; omega)]
  · obtain ⟨k, rfl⟩ := Nat.exists_eq_add_of_le (Nat.le_of_lt (Nat.lt_of_not_le hle))
    rw [List.range_add, List.map_append, Nat.add_sub_cancel_left]
    refine congrArg₂ _ (List.map_congr_left ?_) ?_
    · intro i hi
      rw [readSlot, if_pos (List.mem_range.1 hi)]
    · rw [List.map_map]
      apply List.map_congr_left
      intro i _
      simp only [Function.comp_apply, readSlot]
      rw [if_neg (by omega), Nat.add_sub_cancel_left, Nat.zero_add]

/-- What a dequeue removes, slot by slot. -/
theorem um9RingDequeue_slots {size max n : ℕ} (hsize : isPowerOfTwo size = true) (hmax : max ≠ 0)
    (buf : ℕ → α) (head tail : ℕ)
    (hn : (if max < sub32 tail head then max else sub32 tail head) = n) :
    um9RingDequeue size ⟨some buf, head, tail⟩ max =
      if n = 0 then (⟨some buf, head, tail⟩, []) else (⟨some buf, (head + n) % u32Size, tail⟩,
        (List.range n).map (buf <| readSlot size (head &&& (size - 1)) ·)) := by
  have hbad : ¬(isPowerOfTwo size = false ∨ max = 0) := by
    rw [hsize]
    simp [hmax]
  rw [← load_readSlot]
  simp only [um9RingDequeue, if_neg hbad, hn]

section
variable {size : ℕ} {s : ReadState α}

/-- The copy. -/
theorem readSteps_copy {buf : ℕ → α} (hb : s.ring.buf = some buf) (headOff n : ℕ) :
    (readStep size)^[n] { s with phase := .copying n headOff [] } =
      { s with
        phase := .copying n headOff ((List.range n).map (buf <| readSlot size headOff ·)) } := by
  refine iterate_append (fun dst => { s with phase := .copying n headOff dst }) ?_ le_rfl
  intro dst hdst
  simp only [readStep, hb, if_pos hdst, readSlot]

/-- **Undisturbed, the accesses are `um9_ring_dequeue`.** -/
theorem readSteps_dequeue (hp : s.phase = .idle) (max : ℕ) :
    ∃ k, (readStep size)^[k] (readCall size max s) =
      { s with
        ring := (um9RingDequeue size s.ring max).1
        taken := s.taken ++ (um9RingDequeue size s.ring max).2 } := by
  obtain ⟨⟨buf, head, tail⟩, phase, taken, received⟩ := s
  obtain rfl : phase = .idle := hp
  cases buf with
  | none => exact ⟨0, by simp [readCall, um9RingDequeue]⟩
  | some buf =>
    by_cases hbad : isPowerOfTwo size = false ∨ max = 0
    · refine ⟨0, ?_⟩
      simp only [readCall, um9RingDequeue, Option.isNone_some, Bool.false_eq_true, false_or,
        if_pos hbad, Function.iterate_zero_apply, List.append_nil]
    have hok := not_or.1 hbad
    set n := if max < sub32 tail head then max else sub32 tail head with hn
    have hcall : readCall size max ⟨⟨some buf, head, tail⟩, .idle, taken, received⟩ =
        ⟨⟨some buf, head, tail⟩, .called max, taken, received⟩ := by
      simp only [readCall, Option.isNone_some, Bool.false_eq_true, false_or, if_neg hbad]
    have hd := um9RingDequeue_slots (eq_true_of_ne_false hok.1) hok.2 buf head tail hn.symm
    rw [hcall, hd]
    rcases Nat.eq_zero_or_pos n with h0 | hpos
    · refine ⟨2, ?_⟩
      simp only [h0, Function.iterate_succ_apply, Function.iterate_zero_apply, readStep, ← hn,
        if_true, List.append_nil]
    · refine ⟨n + 1 + 1 + 3, ?_⟩
      rw [Function.iterate_add_apply, Function.iterate_succ_apply', Function.iterate_succ_apply']
      have h3 : (readStep size)^[3] ⟨⟨some buf, head, tail⟩, .called max, taken, received⟩ =
          ⟨⟨some buf, head, tail⟩, .copying n (head &&& (size - 1)) [], taken, received⟩ := by
        simp only [Function.iterate_succ_apply, Function.iterate_zero_apply, readStep, ← hn,
          if_neg hpos.ne']
      have hcopy : (readStep size)^[n] _ = _ := readSteps_copy
        (s := ⟨⟨some buf, head, tail⟩, .called max, taken, received⟩) rfl
        (head &&& (size - 1)) n
      rw [h3, hcopy]
      simp only [readStep, List.length_map, List.length_range, lt_irrefl, if_false,
        if_neg hpos.ne']

end

end Usbmidi9
