/-
  USBMIDI9 — a polling client against read completions
  (`classic/ring.c`, `USBMIDI9DequeueBytes`).

  A client without an event callback polls the ring with `um9_ring_dequeue`, one
  memory access at a time, and whole calls of `um9_ring_enqueue` fall between any
  two accesses (`pollMachine`).

  The head does not move until the dequeue stores it, so what it goes on to return
  is a prefix of the queue, and enqueues only append to the queue: that prefix
  (`ReadPhase.Returns`) is the invariant.  `polled_dequeue` is the result.
-/
import Usbmidi9.Classic.Access

namespace Usbmidi9

variable {α : Type*}

/-- An access of the dequeue, or a whole call of `um9_ring_enqueue`. -/
inductive PollEvent (α : Type*) where
  | access
  | enqueue (data : List α)

def PollEvent.isAccess : PollEvent α → Bool
  | .access => true
  | .enqueue _ => false

/-- A dequeue and the enqueues that interrupt it; the outputs are the bytes that the
    enqueues say they stored. -/
def pollMachine (size : ℕ) : Mealy (ReadState α) (PollEvent α) α where
  step s e := match e with
    | .access => (readStep size s, [])
    | .enqueue data =>
      let d := um9RingEnqueue size s.ring data
      ({ s with ring := d.1 }, data.take d.2)

/-- A read completion without an event callback is one enqueue. -/
theorem readArrival_enqueue (size : ℕ) (s : ReadState α) (data : List α) :
    (readArrival size s data []).ring = ((pollMachine size).step s (.enqueue data)).1.ring := by
  rcases data with _ | ⟨b, data⟩
  · have hnone : (um9RingEnqueue size s.ring []).1 = s.ring := by
      cases hb : s.ring.buf <;> simp [um9RingEnqueue, hb]
    simp [readArrival, pollMachine, hnone]
  · simp [readArrival, pollMachine, hookReads]

/-! ## The invariant -/

/-- What the dequeue goes on to return, once it has read the tail. -/
def ReadPhase.Returns (size : ℕ) (r : Ring α) (goal : List α) : ReadPhase α → Prop
  | .idle | .called _ => False
  | .gotTail max tail => sub32 tail r.head ≤ (r.queue size).length ∧
      goal = (r.queue size).take (min max (sub32 tail r.head))
  | .gotUsed n => n ≤ (r.queue size).length ∧ goal = (r.queue size).take n
  | .copying n headOff dst => n ≤ (r.queue size).length ∧ goal = (r.queue size).take n ∧
      headOff = r.head % size ∧ dst.length ≤ n ∧ dst = (r.queue size).take dst.length
  | .gotHead n dst head => n ≤ (r.queue size).length ∧ goal = (r.queue size).take n ∧
      head = r.head ∧ dst = goal

/-- The number of accesses that are left, at most. -/
def readLeft (s : ReadState α) : ℕ :=
  match s.phase with
  | .idle => 0
  | .called max => min max (sub32 s.ring.tail s.ring.head) + 5
  | .gotTail max tail => min max (sub32 tail s.ring.head) + 4
  | .gotUsed n => n + 3
  | .copying n _ dst => n - dst.length + 2
  | .gotHead .. => 1

/-- The invariant, against the bytes returned and stored when the tail was read. -/
structure PollInv (size : ℕ) (taken queue goal stored : List α) (s : ReadState α) : Prop where
  wf : s.ring.Wf size
  bytes : s.taken ++ s.ring.queue size = taken ++ queue ++ stored
  phase : s.phase = .idle ∧ s.taken = taken ++ goal ∨
    s.taken = taken ∧ s.phase.Returns size s.ring goal

/-- A queue that grows at its end keeps what the dequeue goes on to return. -/
theorem ReadPhase.Returns.grow {size : ℕ} {r r' : Ring α} {goal new : List α} {p : ReadPhase α}
    (h : p.Returns size r goal) (hhead : r'.head = r.head)
    (hq : r'.queue size = r.queue size ++ new) : p.Returns size r' goal := by
  have htake {n : ℕ} (hn : n ≤ (r.queue size).length) :
      (r'.queue size).take n = (r.queue size).take n := by
    rw [hq, List.take_append_of_le_length hn]
  have hle : (r.queue size).length ≤ (r'.queue size).length := by
    rw [hq, List.length_append]
    exact Nat.le_add_right _ _
  cases p with
  | idle | called max => exact h
  | gotTail max tail =>
    obtain ⟨hused, hgoal⟩ := h
    simp only [ReadPhase.Returns, hhead]
    exact ⟨hused.trans hle, by rw [htake ((Nat.min_le_right _ _).trans hused), hgoal]⟩
  | gotUsed n =>
    obtain ⟨hn, hgoal⟩ := h
    exact ⟨hn.trans hle, by rw [htake hn, hgoal]⟩
  | copying n headOff dst =>
    obtain ⟨hn, hgoal, hoff, hlen, hdst⟩ := h
    refine ⟨hn.trans hle, by rw [htake hn, hgoal], by rw [hhead, hoff], hlen, ?_⟩
    rw [htake (hlen.trans hn)]
    exact hdst
  | gotHead n dst head =>
    obtain ⟨hn, hgoal, hh, hdst⟩ := h
    exact ⟨hn.trans hle, by rw [htake hn, hgoal], by rw [hhead, hh], hdst⟩

/-- What an enqueue says it stored. -/
theorem take_um9RingEnqueue {size : ℕ} (hs : RingSize size) {r : Ring α} (h : r.Wf size)
    (data : List α) : (um9RingEnqueue size r data).1.queue size =
      r.queue size ++ data.take (um9RingEnqueue size r data).2 := by
  obtain ⟨-, hq, hn, -⟩ := um9RingEnqueue_spec hs h data
  rw [hq, hn, Nat.min_comm, ← List.take_eq_take_min]

section
variable {size : ℕ} {taken queue goal stored : List α} {s : ReadState α}

/-- **A memory access** of the dequeue. -/
theorem PollInv.access (hs : RingSize size) (h : PollInv size taken queue goal stored s) :
    PollInv size taken queue goal stored (readStep size s) := by
  obtain ⟨buf, hb⟩ := Option.isSome_iff_exists.1 h.wf.buf
  obtain ⟨hidle, -⟩ | ⟨htaken, hret⟩ := h.phase
  · have hid : readStep size s = s := by simp only [readStep, hidle, hb]
    rwa [hid]
  rcases hp : s.phase with _ | max | ⟨max, tail⟩ | n | ⟨n, headOff, dst⟩ | ⟨n, dst, head⟩ <;>
    rw [hp] at hret <;> simp only [readStep, hp, hb]
  case idle | called => exact hret.elim
  case gotTail =>
    obtain ⟨hused, hgoal⟩ := hret
    refine ⟨h.wf, h.bytes, ?_⟩
    by_cases hn : (if max < sub32 tail s.ring.head then max else sub32 tail s.ring.head) = 0
    · have hmin : min max (sub32 tail s.ring.head) = 0 := by
        split_ifs at hn <;> omega
      refine .inl ⟨by simp only [hn, if_true], ?_⟩
      rw [hgoal, hmin, List.take_zero, List.append_nil, htaken]
    · have hmin : (if max < sub32 tail s.ring.head then max else sub32 tail s.ring.head) =
          min max (sub32 tail s.ring.head) := by
        split_ifs <;> omega
      rw [if_neg hn, hmin]
      exact .inr ⟨htaken, (Nat.min_le_right _ _).trans hused, hgoal⟩
  case gotUsed =>
    obtain ⟨hn, hgoal⟩ := hret
    exact ⟨h.wf, h.bytes, .inr ⟨htaken, hn, hgoal, hs.mask _, Nat.zero_le _,
      List.take_zero.symm⟩⟩
  case copying =>
    obtain ⟨hn, hgoal, rfl, hlen, hdst⟩ := hret
    have hsize := Ring.length_queue_le h.wf
    by_cases hlt : dst.length < n
    · rw [if_pos hlt, copy_slot (by omega)]
      refine ⟨h.wf, h.bytes, .inr ⟨htaken, hn, hgoal, rfl, ?_, ?_⟩⟩
      · rw [List.length_append]
        exact hlt
      · rw [List.length_append, List.length_singleton, queue_take_succ hb (by omega), ← hdst]
    · rw [if_neg hlt]
      obtain rfl : dst.length = n := by omega
      exact ⟨h.wf, h.bytes, .inr ⟨htaken, hn, hgoal, rfl, hdst.trans hgoal.symm⟩⟩
  case gotHead =>
    obtain ⟨hn, hgoal, rfl, rfl⟩ := hret
    obtain ⟨hw, hq⟩ := h.wf.dequeued hs hn
    rw [hb] at hw hq
    refine ⟨hw, ?_, .inl ⟨rfl, by rw [htaken]⟩⟩
    rw [hq, hgoal, List.append_assoc, List.take_append_drop, h.bytes]

/-- **An enqueue** between two accesses. -/
theorem PollInv.enqueue (hs : RingSize size) (h : PollInv size taken queue goal stored s)
    (data : List α) :
    let d := um9RingEnqueue size s.ring data
    PollInv size taken queue goal (stored ++ data.take d.2) { s with ring := d.1 } := by
  intro d
  obtain ⟨hw, -, -, hhead⟩ := um9RingEnqueue_spec hs h.wf data
  have hq := take_um9RingEnqueue hs h.wf data
  refine ⟨hw, ?_, ?_⟩
  · rw [hq, ← List.append_assoc, h.bytes, List.append_assoc]
  · exact h.phase.imp_right fun ⟨htaken, hret⟩ => ⟨htaken, hret.grow hhead hq⟩

/-- An access leaves one access less. -/
theorem readLeft_access (size : ℕ) (s : ReadState α) :
    readLeft (readStep size s) ≤ readLeft s - 1 := by
  cases hb : s.ring.buf with
  | none =>
    have h0 : readLeft (readStep size s) = 0 := by
      cases hp : s.phase <;> simp only [readStep, hp, hb, readLeft]
    rw [h0]
    exact Nat.zero_le _
  | some buf =>
    cases hp : s.phase with
    | idle => simp only [readStep, hp, hb, readLeft, Nat.zero_le]
    | called max => simp only [readStep, hp, hb, readLeft]; omega
    | gotTail max tail =>
      simp only [readStep, hp, hb, readLeft]
      by_cases hn : (if max < sub32 tail s.ring.head then max else sub32 tail s.ring.head) = 0
      · simp only [hn, if_true, Nat.zero_le]
      · simp only [hn, if_false]
        split_ifs <;> omega
    | gotUsed n => simp only [readStep, hp, hb, readLeft, List.length_nil]; omega
    | copying n headOff dst =>
      simp only [readStep, hp, hb, readLeft]
      by_cases hlt : dst.length < n
      · simp only [if_pos hlt, List.length_append, List.length_singleton]
        omega
      · simp only [if_neg hlt]
        omega
    | gotHead n dst head => simp only [readStep, hp, hb, readLeft, Nat.zero_le]

/-- An enqueue leaves all of them. -/
theorem PollInv.readLeft_enqueue (hs : RingSize size)
    (h : PollInv size taken queue goal stored s) (data : List α) :
    readLeft { s with ring := (um9RingEnqueue size s.ring data).1 } = readLeft s := by
  obtain ⟨-, -, -, hhead⟩ := um9RingEnqueue_spec hs h.wf data
  obtain ⟨hidle, -⟩ | ⟨-, hret⟩ := h.phase
  · simp only [readLeft, hidle]
  · cases hp : s.phase with
    | called max =>
      rw [hp] at hret
      exact hret.elim
    | idle | gotTail | gotUsed | copying | gotHead => simp only [readLeft, hp, hhead]

/-- **A run** of accesses and enqueues. -/
theorem PollInv.run (hs : RingSize size) (h : PollInv size taken queue goal [] s)
    (es : List (PollEvent α)) :
    PollInv size taken queue goal ((pollMachine size).out s es) ((pollMachine size).final s es) ∧
      readLeft ((pollMachine size).final s es) ≤ readLeft s - es.countP PollEvent.isAccess := by
  refine (pollMachine size).inv (I := fun es stored t =>
    PollInv size taken queue goal stored t ∧
      readLeft t ≤ readLeft s - es.countP PollEvent.isAccess) ?_ [] [] ⟨h, le_rfl⟩ es
  rintro js stored t e ⟨hinv, hleft⟩
  rw [List.countP_append]
  cases e with
  | access =>
    have hless := readLeft_access size t
    refine ⟨?_, ?_⟩
    · simp only [pollMachine, List.append_nil]
      exact hinv.access hs
    · simp only [pollMachine, List.countP_singleton, PollEvent.isAccess, if_true]
      omega
  | enqueue data =>
    refine ⟨hinv.enqueue hs data, ?_⟩
    have hsame := hinv.readLeft_enqueue hs data
    simp only [pollMachine, List.countP_singleton, PollEvent.isAccess, hsame, Bool.false_eq_true,
      if_false, Nat.add_zero]
    exact hleft

/-- The tail is read. -/
theorem PollInv.start (hw : s.ring.Wf size) {max : ℕ} (hp : s.phase = .called max) :
    PollInv size s.taken (s.ring.queue size)
        ((s.ring.queue size).take (min max (s.ring.queue size).length)) [] (readStep size s) ∧
      readLeft (readStep size s) = min max (s.ring.queue size).length + 4 := by
  obtain ⟨buf, hb⟩ := Option.isSome_iff_exists.1 hw.buf
  have hlen := Ring.length_queue hw
  simp only [readStep, hp, hb, readLeft, hlen, and_true]
  exact ⟨hw, (List.append_nil _).symm, .inr ⟨rfl, hlen.ge, rfl⟩⟩

end

/-- **A poll is safe against read completions.**  Once a dequeue has read the tail,
    whatever accesses and enqueues follow: the used count is at most the size, an
    enqueue stores what the used count leaves room for, and what was returned and
    what the ring holds are the earlier bytes and the stored ones, in order.  Until
    the dequeue returns, its bytes count as used; what it returns are the oldest
    bytes, as many as were asked for and there when it read the tail. -/
theorem polled_dequeue {size : ℕ} (hs : RingSize size) {s : ReadState α} (hw : s.ring.Wf size)
    {max : ℕ} (hp : s.phase = .called max) (es : List (PollEvent α)) :
    let used := um9RingUsed size s.ring
    let t := (pollMachine size).final (readStep size s) es
    let stored := (pollMachine size).out (readStep size s) es
    um9RingUsed size t.ring ≤ size ∧
      (∀ data, (um9RingEnqueue size t.ring data).2 =
        min data.length (size - um9RingUsed size t.ring)) ∧
      t.taken ++ t.ring.queue size = s.taken ++ s.ring.queue size ++ stored ∧
      (t.phase ≠ .idle → t.taken = s.taken ∧ um9RingUsed size t.ring = used + stored.length) ∧
      (t.phase = .idle → t.taken = s.taken ++ (s.ring.queue size).take (min max used)) ∧
      (min max used + 4 ≤ es.countP PollEvent.isAccess → t.phase = .idle) := by
  intro used t stored
  have hused : used = (s.ring.queue size).length := um9RingUsed_eq hs hw
  obtain ⟨hstart, hleft⟩ := PollInv.start hw hp
  obtain ⟨hinv, hrest⟩ : PollInv size s.taken (s.ring.queue size) _ stored t ∧
      readLeft t ≤ _ - es.countP PollEvent.isAccess := hstart.run hs es
  have husedt : um9RingUsed size t.ring = (t.ring.queue size).length := um9RingUsed_eq hs hinv.wf
  refine ⟨?_, ?_, hinv.bytes, ?_, ?_, ?_⟩
  · rw [husedt]
    exact Ring.length_queue_le hinv.wf
  · intro data
    obtain ⟨-, -, hn, -⟩ := um9RingEnqueue_spec hs hinv.wf data
    rw [hn, husedt]
  · intro hbusy
    obtain ⟨hidle, -⟩ | ⟨htaken, -⟩ := hinv.phase
    · exact absurd hidle hbusy
    · have hbytes := congrArg List.length hinv.bytes
      simp only [List.length_append] at hbytes
      rw [htaken] at hbytes
      exact ⟨htaken, by rw [husedt, hused]; omega⟩
  · intro hidle
    obtain ⟨-, htaken⟩ | ⟨-, hret⟩ := hinv.phase
    · rw [hused]
      exact htaken
    · rw [hidle] at hret
      exact hret.elim
  · intro hmany
    rw [hleft, ← hused] at hrest
    have hzero : readLeft t = 0 := by omega
    cases hphase : t.phase with
    | idle => rfl
    | called | gotTail | gotUsed | copying | gotHead => simp [readLeft, hphase] at hzero

/-- Three bytes in a ring of four whose head is about to wrap, and room for one. -/
abbrev wrappedRead : ReadState UInt8 := ⟨⟨some .ofNat, u32Size - 2, 1⟩, .called 2, [], []⟩

/-- Four bytes come before the copy, of which one is stored, and four after the
    store of the head, of which two are. -/
abbrev polledEvents : List (PollEvent UInt8) :=
  [.enqueue [9, 9, 9, 9], .access, .access, .access, .access, .enqueue [8], .access, .access,
    .enqueue [7, 6, 5, 4]]

theorem polled_dequeue_wrapped :
    let t := (pollMachine 4).final (readStep 4 wrappedRead) polledEvents
    t.taken = [2, 3] ∧ t.ring.queue 4 = [0, 9, 7, 6] ∧ um9RingUsed 4 t.ring ≤ 4 := by
  intro t
  have hw : wrappedRead.ring.Wf 4 := ⟨rfl, by decide, by decide, by decide⟩
  obtain ⟨hle, -, hbytes, -, htaken, hidle⟩ :=
    polled_dequeue ⟨2, by decide, rfl⟩ hw rfl polledEvents
  have hout : t.taken = [2, 3] := (htaken (hidle (by decide))).trans (by decide)
  refine ⟨hout, ?_, hle⟩
  have hall : t.taken ++ t.ring.queue 4 = [2, 3] ++ [0, 9, 7, 6] := hbytes.trans (by decide)
  rw [hout] at hall
  exact List.append_cancel_left hall

end Usbmidi9
