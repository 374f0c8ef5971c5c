/-
  USBMIDI9 — the framing of Event Packets in the byte ring.

  Transfers and dequeues of whole Event Packets, of any size and in any order:
  what dequeues return is a sequence of whole packets in the order of reception,
  and so is what the ring holds, so that the other packets were dropped whole.

  The event callback makes the completion a second consumer of the ring.
  `ReadOk` says where its dequeues do no harm to a dequeue that the completion
  interrupts; `framing_kept` is the result over runs under that condition, and
  `framing_lost` a run without it.
-/
import Usbmidi9.Classic.Access
import Usbmidi9.Classic.Instance
import Usbmidi9.Lib.Reach

namespace Usbmidi9

variable {α : Type*}

/-- Transfers and dequeues are of whole Event Packets. -/
def ReadEvent.Whole : ReadEvent α → Prop
  | .call max => 4 ∣ max
  | .step => True
  | .completion data hook => 4 ∣ data.length ∧ ∀ max ∈ hook, 4 ∣ max

/-- What the dequeues of an event callback may do to a dequeue that they interrupt,
    if they leave `left` bytes and the head at `head`: as long as it has not read
    where to copy from, they leave the bytes that it goes on to take, and from
    then on they take none. -/
def ReadPhase.Spared (head left : ℕ) (hook : List ℕ) : ReadPhase α → Prop
  | .idle | .called _ => True
  | .gotTail max tail => min max (sub32 tail head) ≤ left
  | .gotUsed n => n ≤ left
  | .copying .. | .gotHead .. => ∀ max ∈ hook, max = 0

/-- The condition on completions. -/
def ReadOk (s : ReadState α) : ReadEvent α → Prop
  | .completion data hook =>
    let used := min ringSize (sub32 s.ring.tail s.ring.head + data.length)
    let left := hook.foldl (· - ·) used
    data = [] ∨ s.phase.Spared ((s.ring.head + (used - left)) % u32Size) left hook
  | _ => True

instance (e : ReadEvent α) : Decidable e.Whole :=
  match e with
  | .call _ => inferInstanceAs (Decidable (_ ∣ _))
  | .step => isTrue trivial
  | .completion _ _ => inferInstanceAs (Decidable (_ ∧ _))

instance (head left : ℕ) (hook : List ℕ) (phase : ReadPhase α) :
    Decidable (phase.Spared head left hook) :=
  match phase with
  | .idle | .called _ => isTrue trivial
  | .gotTail .. | .gotUsed _ => inferInstanceAs (Decidable (_ ≤ _))
  | .copying .. | .gotHead .. => inferInstanceAs (Decidable (∀ max ∈ hook, max = 0))

instance [DecidableEq α] (s : ReadState α) (e : ReadEvent α) : Decidable (ReadOk s e) :=
  match e with
  | .call _ | .step => isTrue trivial
  | .completion _ _ => inferInstanceAs (Decidable (_ ∨ _))

/-- A connection that was just initialised, its ring allocated or not. -/
def ReadState.fresh (buf : Option (ℕ → α)) : ReadState α := ⟨⟨buf, 0, 0⟩, .idle, [], []⟩

/-- The driver's read stage does to its ring what `readArrival` does before the
    event callback. -/
theorem readCompleted_ring (index id : ℕ) (m : Machine) (s : ReadState UInt8)
    (hring : s.ring = m.inst.ring) (hstatus : m.inst.pb.usbStatus = usbNoErr) :
    (readCompleted index id m).inst.ring = (readArrival ringSize s m.inst.pb.usbData []).ring := by
  have hstall : ¬usbNoErr = usbPipeStalledError := by decide
  rcases hdata : m.inst.pb.usbData with _ | ⟨b, data⟩
  · simp [readCompleted, readArrival, hdata, hstatus, Machine.upd, Machine.setRefcon, Machine.updPB,
      hring]
  · simp only [readCompleted, readArrival, hdata, hstatus, hookReads, hring, reduceCtorEq, if_false]
    rw [if_neg hstall, if_pos ⟨trivial, Nat.succ_pos _⟩]
    split <;> rfl

/-! ## Event Packets -/

theorem eventPackets_spec {data : List α} (h : 4 ∣ data.length) :
    (eventPackets data).flatten = data ∧ ∀ p ∈ eventPackets data, p.length = 4 := by
  fun_induction eventPackets data with
  | case1 a b c d rest ih =>
    obtain ⟨h1, h2⟩ := ih (by simp only [List.length_cons] at h; omega)
    refine ⟨by simp [h1], ?_⟩
    exact List.forall_mem_cons.2 ⟨rfl, h2⟩
  | case2 data hshort =>
    have hnil : data = [] := by
      match data, h with
      | [], _ => rfl
      | [_], h | [_, _], h | [_, _, _], h => simp at h
      | a :: b :: c :: d :: rest, _ => exact absurd rfl (hshort a b c d rest)
    exact ⟨hnil.symm, nofun⟩

/-! ## The dequeues of an event callback -/

/-- Two rings with the same tail: how far the head moved. -/
theorem Ring.Wf.head_move {size : ℕ} {r r' : Ring α} (h : r.Wf size) (h' : r'.Wf size)
    (ht : r'.tail = r.tail) (hle : sub32 r'.tail r'.head ≤ sub32 r.tail r.head) :
    r'.head = (r.head + (sub32 r.tail r.head - sub32 r'.tail r'.head)) % u32Size := by
  have h1 := h.head
  have h2 := h.tail
  have h3 := h'.head
  simp only [sub32, u32Size, ht] at *
  omega

theorem hookReads_none {size : ℕ} {r : Ring α} (h : r.buf = none) (hook : List ℕ) :
    hookReads size hook r = (r, []) := by
  induction hook with
  | nil => rfl
  | cons max hook ih =>
    have hd : um9RingDequeue size r max = (r, []) := by simp only [um9RingDequeue, h]
    simp only [hookReads, hd, ih, List.append_nil]

section
variable {r : Ring α}

theorem foldl_sub_le (hook : List ℕ) (n : ℕ) : hook.foldl (· - ·) n ≤ n := by
  induction hook generalizing n with
  | nil => exact le_rfl
  | cons max hook ih => exact (ih _).trans (Nat.sub_le n max)

theorem hookReads_spec (h : r.Wf ringSize) (hook : List ℕ) :
    (hookReads ringSize hook r).1.Wf ringSize ∧
      (hookReads ringSize hook r).1.tail = r.tail ∧
      ((hookReads ringSize hook r).1.queue ringSize).length =
        hook.foldl (· - ·) (r.queue ringSize).length := by
  induction hook generalizing r with
  | nil => exact ⟨h, rfl, rfl⟩
  | cons max hook ih =>
    obtain ⟨h1, -, h3, h4⟩ := um9RingDequeue_spec ringSize_ok h max
    obtain ⟨i1, i2, i3⟩ := ih h1
    refine ⟨i1, i2.trans h4, ?_⟩
    rw [hookReads, i3, h3, List.length_drop, List.foldl_cons]

theorem hookReads_framed (h : r.Wf ringSize) {units : List (List α)} {out : List α} {hook : List ℕ}
    (hhook : ∀ max ∈ hook, 4 ∣ max) (hunits : ∀ u ∈ units, u.length = 4)
    (hf : Framed units out (r.queue ringSize)) :
    Framed units (out ++ (hookReads ringSize hook r).2)
      ((hookReads ringSize hook r).1.queue ringSize) := by
  induction hook generalizing r out with
  | nil => simpa [hookReads] using hf
  | cons max hook ih =>
    obtain ⟨h1, h2, h3, -⟩ := um9RingDequeue_spec ringSize_ok h max
    obtain ⟨hmax, hrest⟩ := List.forall_mem_cons.1 hhook
    have hnext := hf.dequeue hunits hmax
    rw [← h2, ← h3] at hnext
    have hall := ih h1 hrest hnext
    rwa [List.append_assoc] at hall

/-- Dequeues of no bytes. -/
theorem hookReads_zero {hook : List ℕ} (hhook : ∀ max ∈ hook, max = 0) :
    hookReads ringSize hook r = (r, []) := by
  induction hook with
  | nil => rfl
  | cons max hook ih =>
    obtain ⟨rfl, hrest⟩ := List.forall_mem_cons.1 hhook
    have hd : um9RingDequeue ringSize r 0 = (r, []) := by
      cases hb : r.buf <;> simp only [um9RingDequeue, hb, or_true, if_true]
    simp only [hookReads, hd, ih hrest, List.append_nil]

end

/-! ## The invariant -/

/-- What a dequeue in progress has read is what the ring still holds. -/
def ReadPhase.Ok (r : Ring α) : ReadPhase α → Prop
  | .idle => True
  | .called max => 4 ∣ max
  | .gotTail max tail =>
    4 ∣ max ∧ 4 ∣ tail ∧ min max (sub32 tail r.head) ≤ (r.queue ringSize).length
  | .gotUsed n => 4 ∣ n ∧ n ≤ (r.queue ringSize).length
  | .copying n headOff dst => 4 ∣ n ∧ n ≤ (r.queue ringSize).length ∧ headOff = r.head % ringSize ∧
      dst.length ≤ n ∧ dst = (r.queue ringSize).take dst.length
  | .gotHead n dst head => 4 ∣ n ∧ n ≤ (r.queue ringSize).length ∧ head = r.head ∧
      dst = (r.queue ringSize).take n

/-- The invariant; a ring without memory is never dequeued from. -/
structure ReadInv (s : ReadState α) : Prop where
  ring : s.ring.Wf ringSize ∨ s.ring.buf = none ∧ s.phase = .idle
  framed : Framed s.received s.taken (s.ring.queue ringSize)
  packets : ∀ p ∈ s.received, p.length = 4
  tail : 4 ∣ s.ring.tail
  phase : s.phase.Ok s.ring

theorem ReadInv.fresh (buf : Option (ℕ → α)) : ReadInv (.fresh buf) := by
  have hq : Ring.queue ringSize ⟨buf, 0, 0⟩ = [] := by
    cases buf with
    | none => rfl
    | some buf => simp [Ring.queue, sub32]
  refine ⟨?_, ?_, List.forall_mem_nil _, ⟨0, rfl⟩, trivial⟩
  · cases buf with
    | none => exact .inr ⟨rfl, rfl⟩
    | some buf => exact .inl ((Ring.sound_zero ringSize rfl rfl).resolve_left (Option.some_ne_none _))
  · show Framed [] [] (Ring.queue ringSize ⟨buf, 0, 0⟩)
    rw [hq]
    exact Framed.nil

namespace ReadInv
variable {s : ReadState α}

/-- The ring holds whole packets. -/
theorem queue_dvd (h : ReadInv s) : 4 ∣ (s.ring.queue ringSize).length := by
  obtain ⟨left, held, hsub, -, hq⟩ := h.framed
  have hheld : ∀ u ∈ held, u.length = 4 := by
    intro u hu
    exact h.packets u (hsub.subset (List.mem_append_right left hu))
  rw [hq, List.length_flatten, List.map_congr_left hheld, List.map_const', List.sum_replicate]
  exact Dvd.intro_left _ rfl

/-- The head is on a packet boundary, as the tail is. -/
theorem head_dvd (h : ReadInv s) (hw : s.ring.Wf ringSize) : 4 ∣ s.ring.head := by
  have h1 := h.tail
  have h2 := h.queue_dvd
  rw [Ring.length_queue hw] at h2
  rw [hw.tail_eq] at h1
  simp only [u32Size] at *
  omega

theorem call (h : ReadInv s) {max : ℕ} (hmax : 4 ∣ max) :
    ReadInv (readCall ringSize max s) := by
  unfold readCall
  split_ifs with hbad
  · exact h
  · have hw : s.ring.Wf ringSize := by
      rcases h.ring with hw | ⟨hn, -⟩
      · exact hw
      · simp [hn] at hbad
    exact ⟨.inl hw, h.framed, h.packets, h.tail, hmax⟩

/-- An access to a ring with memory. -/
theorem step_wf (h : ReadInv s) (hw : s.ring.Wf ringSize) : ReadInv (readStep ringSize s) := by
  obtain ⟨buf, hb⟩ := Option.isSome_iff_exists.1 hw.buf
  have hlen := Ring.length_queue hw
  have hphase := h.phase
  rcases hp : s.phase with _ | max | ⟨max, tail⟩ | n | ⟨n, headOff, dst⟩ | ⟨n, dst, head⟩ <;>
    rw [hp] at hphase <;> simp only [readStep, hp, hb]
  case idle => exact h
  case called =>
    refine ⟨.inl hw, h.framed, h.packets, h.tail, hphase, h.tail, ?_⟩
    rw [hlen]
    exact Nat.min_le_right _ _
  case gotTail =>
    obtain ⟨hmax, htail, hle⟩ := hphase
    have hhead := h.head_dvd hw
    have hused : 4 ∣ sub32 tail s.ring.head := by
      simp only [sub32, u32Size]
      omega
    refine ⟨.inl hw, h.framed, h.packets, h.tail, ?_⟩
    by_cases hn : (if max < sub32 tail s.ring.head then max else sub32 tail s.ring.head) = 0
    · simp only [hn, if_true, ReadPhase.Ok]
    · simp only [hn, if_false, ReadPhase.Ok]
      split_ifs <;> constructor <;> first | assumption | omega
  case gotUsed =>
    obtain ⟨hn, hle⟩ := hphase
    exact ⟨.inl hw, h.framed, h.packets, h.tail, hn, hle, ringSize_ok.mask _, Nat.zero_le _,
      List.take_zero.symm⟩
  case copying =>
    obtain ⟨h4, hn, rfl, hd, hdst⟩ := hphase
    have hsize := Ring.length_queue_le hw
    by_cases hlt : dst.length < n
    · rw [if_pos hlt, copy_slot (by omega)]
      refine ⟨.inl hw, h.framed, h.packets, h.tail, h4, hn, rfl, ?_, ?_⟩
      · rw [List.length_append]
        exact hlt
      · rw [List.length_append, List.length_singleton, queue_take_succ hb (by omega), ← hdst]
    · rw [if_neg hlt]
      obtain rfl : dst.length = n := by omega
      exact ⟨.inl hw, h.framed, h.packets, h.tail, h4, hn, rfl, hdst⟩
  case gotHead =>
    obtain ⟨h4, hn, rfl, rfl⟩ := hphase
    obtain ⟨hw', hq⟩ := hw.dequeued ringSize_ok hn
    rw [hb] at hw' hq
    refine ⟨.inl hw', ?_, h.packets, h.tail, trivial⟩
    rw [hq]
    exact h.framed.dequeue h.packets h4

/-- **A memory access** keeps the invariant. -/
theorem step (h : ReadInv s) : ReadInv (readStep ringSize s) := by
  rcases h.ring with hw | ⟨hn, hidle⟩
  · exact h.step_wf hw
  · have hid : readStep ringSize s = s := by
      obtain ⟨ring, phase, taken, received⟩ := s
      obtain rfl : phase = .idle := hidle
      simp only at hn
      simp only [readStep, hn]
    rwa [hid]

/-- The transfer of a completion, before its event callback. -/
theorem enqueue (h : ReadInv s) (hw : s.ring.Wf ringSize) {data : List α} (h4 : 4 ∣ data.length) :
    let r := (um9RingEnqueue ringSize s.ring data).1
    r.Wf ringSize ∧ r.head = s.ring.head ∧ 4 ∣ r.tail ∧
      (r.queue ringSize).length = min ringSize (sub32 s.ring.tail s.ring.head + data.length) ∧
      s.ring.queue ringSize <+: r.queue ringSize ∧
      Framed (s.received ++ eventPackets data) s.taken (r.queue ringSize) := by
  intro r
  obtain ⟨h1, h2, -, hhead⟩ := um9RingEnqueue_spec ringSize_ok hw data
  obtain ⟨p1, p2⟩ := eventPackets_spec h4
  have hlen := Ring.length_queue hw
  have hsize := Ring.length_queue_le hw
  have hdvd := h.queue_dvd
  have hframed := h.framed.enqueue p2
    (show 4 ∣ ringSize - (s.ring.queue ringSize).length from Nat.dvd_sub ⟨1024, rfl⟩ hdvd)
  rw [p1, ← h2] at hframed
  have hlen' : (r.queue ringSize).length =
      min ringSize (sub32 s.ring.tail s.ring.head + data.length) := by
    rw [h2, List.length_append, List.length_take, ← hlen]
    omega
  have htail : 4 ∣ r.tail := by
    have hhead4 := h.head_dvd hw
    have hq4 : 4 ∣ (r.queue ringSize).length := by
      rw [hlen', ← hlen]
      rcases min_choice ringSize ((s.ring.queue ringSize).length + data.length) with he | he
      · rw [he]; exact ⟨1024, rfl⟩
      · rw [he]; exact dvd_add hdvd h4
    rw [Ring.length_queue h1] at hq4
    rw [h1.tail_eq]
    rw [← hhead] at hhead4
    simp only [u32Size] at *
    omega
  exact ⟨h1, hhead, htail, hlen', h2 ▸ List.prefix_append _ _, hframed⟩

/-- A completion on a ring with memory. -/
theorem arrival_wf (h : ReadInv s) (hw : s.ring.Wf ringSize) {data : List α} {hook : List ℕ}
    (hnil : data ≠ []) (hwhole : (ReadEvent.completion data hook).Whole)
    (hok : ReadOk s (.completion data hook)) : ReadInv (readArrival ringSize s data hook) := by
  obtain ⟨h4, hhook⟩ := hwhole
  obtain ⟨-, p2⟩ := eventPackets_spec h4
  have hpackets : ∀ p ∈ s.received ++ eventPackets data, p.length = 4 := by
    intro p hp
    exact (List.mem_append.1 hp).elim (h.packets p) (p2 p)
  obtain ⟨e1, e2, e3, e4, e5, e6⟩ := h.enqueue hw h4
  rw [readArrival, if_neg hnil]
  set r := (um9RingEnqueue ringSize s.ring data).1
  obtain ⟨d1, d2, d3⟩ := hookReads_spec e1 hook
  have hsame (hzero : ∀ max ∈ hook, max = 0) : (hookReads ringSize hook r).1 = r := by
    rw [hookReads_zero hzero]
  have htake {n : ℕ} (hn : n ≤ (s.ring.queue ringSize).length) :
      (s.ring.queue ringSize).take n = (r.queue ringSize).take n := by
    obtain ⟨new, hnew⟩ := e5
    rw [← hnew, List.take_append_of_le_length hn]
  have hlong := e5.length_le
  refine ⟨.inl d1, hookReads_framed e1 hhook hpackets e6, hpackets, d2 ▸ e3, ?_⟩
  show s.phase.Ok (hookReads ringSize hook r).1
  have hphase := h.phase
  have hspared := hok.resolve_left hnil
  revert hspared hphase
  cases s.phase with
  | idle | called max => exact fun hphase _ => hphase
  | gotTail max tail =>
    rintro ⟨p1, p2, -⟩ hspared
    have hle := foldl_sub_le hook (r.queue ringSize).length
    have hmove := e1.head_move d1 d2
      (by rw [← Ring.length_queue d1, ← Ring.length_queue e1, d3]; exact hle)
    rw [← Ring.length_queue d1, ← Ring.length_queue e1, d3, e4, e2] at hmove
    refine ⟨p1, p2, ?_⟩
    rw [d3, e4, hmove]
    exact hspared
  | gotUsed n =>
    rintro ⟨p1, -⟩ hspared
    refine ⟨p1, ?_⟩
    rw [d3, e4]
    exact hspared
  | copying n headOff dst =>
    rintro ⟨p1, p2, p3, p4, p5⟩ hspared
    rw [hsame hspared]
    refine ⟨p1, p2.trans hlong, p3.trans (by rw [e2]), p4, ?_⟩
    rw [← htake (p4.trans p2)]
    exact p5
  | gotHead n dst head =>
    rintro ⟨p1, p2, p3, p4⟩ hspared
    rw [hsame hspared]
    refine ⟨p1, p2.trans hlong, p3.trans e2.symm, ?_⟩
    rw [← htake p2]
    exact p4

/-- **A completion** keeps the invariant where the condition lets it happen. -/
theorem arrival (h : ReadInv s) {data : List α} {hook : List ℕ}
    (hwhole : (ReadEvent.completion data hook).Whole) (hok : ReadOk s (.completion data hook)) :
    ReadInv (readArrival ringSize s data hook) := by
  by_cases hnil : data = []
  · simpa only [readArrival, hnil, if_true] using h
  rcases h.ring with hw | ⟨hn, hp⟩
  · exact h.arrival_wf hw hnil hwhole hok
  · -- the ring has no memory: every packet is dropped
    obtain ⟨-, p2⟩ := eventPackets_spec hwhole.1
    have henq : (um9RingEnqueue ringSize s.ring data).1 = s.ring := by
      simp only [um9RingEnqueue, hn]
    obtain ⟨left, held, hsub, ht, hq⟩ := h.framed
    rw [readArrival, if_neg hnil, henq, hookReads_none hn]
    refine ⟨.inr ⟨hn, hp⟩, ⟨left, held, hsub.trans (List.sublist_append_left _ _), ?_, hq⟩, ?_,
      h.tail, h.phase⟩
    · simpa using ht
    · intro p hp
      exact (List.mem_append.1 hp).elim (h.packets p) (p2 p)

end ReadInv

/-! ## Runs -/

/-- **Framing.**  In every run of whole transfers and whole dequeues, from the
    initialisation of a connection on, whose completions meet the condition: what
    was dequeued, and after it what the ring holds, are whole Event Packets in
    the order of reception. -/
theorem framing_kept {buf : Option (ℕ → α)} {s : ReadState α}
    (h : Reach (readSys ringSize) (fun s e => e.Whole ∧ ReadOk s e) (.fresh buf) s) :
    Framed s.received s.taken (s.ring.queue ringSize) ∧ ∀ p ∈ s.received, p.length = 4 := by
  have hinv : ReadInv s := h.inv (.fresh buf) fun s e s' hI hok hs => by
    cases e with
    | call max =>
      simp only [readSys] at hs
      split at hs
      · exact Option.some.inj hs ▸ hI.call hok.1
      · cases hs
    | step => exact Option.some.inj hs ▸ hI.step
    | completion data hook => exact Option.some.inj hs ▸ hI.arrival hok.1 hok.2
  exact ⟨hinv.framed, hinv.packets⟩

/-- A ring of bytes before its first transfer. -/
abbrev ReadState.start : ReadState UInt8 := .fresh (some fun _ => 0)

/-- A Note On and a Note Off. -/
abbrev noteOnPacket : List UInt8 := [0x09, 0x90, 0x3C, 0x40]
abbrev noteOffPacket : List UInt8 := [0x08, 0x80, 0x3C, 0x40]

/-- Two packets arrive, a third one in the middle of a dequeue, whose callback
    dequeues nothing; then the callback of a fourth one takes what is left. -/
abbrev framedEvents : List (ReadEvent UInt8) :=
  [.completion (noteOnPacket ++ noteOffPacket) [], .call 4, .step, .step, .step, .step, .step,
    .completion noteOnPacket [0], .step, .step, .step, .step, .completion noteOffPacket [64]]

theorem framing_kept_run : ∃ s,
    runEvents (readSys ringSize) .start framedEvents = some s ∧
      s.taken = noteOnPacket ++ noteOffPacket ++ noteOnPacket ++ noteOffPacket ∧
      Framed s.received s.taken (s.ring.queue ringSize) ∧ ∀ p ∈ s.received, p.length = 4 := by
  obtain ⟨s, hs⟩ : ∃ s, runEvents (readSys ringSize) .start framedEvents = some s :=
    Option.isSome_iff_exists.1 (by decide +kernel)
  refine ⟨s, hs, ?_, framing_kept (.of_run ?_ hs)⟩
  · have htaken := congrArg (Option.map ReadState.taken) hs
    exact Option.some.inj (htaken.symm.trans (by decide +kernel))
  · decide +kernel

/-- The callback of a completion dequeues between the copy of an interrupted
    dequeue and its store of the head. -/
abbrev lostEvents : List (ReadEvent UInt8) :=
  [.completion noteOnPacket [], .call 64, .step, .step, .step, .step, .step, .step, .step,
    .completion noteOffPacket [64], .step, .step]

/-- **A packet is returned twice** where a callback dequeues during a dequeue. -/
theorem framing_lost :
    ¬∀ s : ReadState UInt8, Reach (readSys ringSize) (fun _ e => e.Whole) .start s →
      Framed s.received s.taken (s.ring.queue ringSize) ∧ ∀ p ∈ s.received, p.length = 4 := by
  intro h
  obtain ⟨s, hs⟩ : ∃ s, runEvents (readSys ringSize) .start lostEvents = some s :=
    Option.isSome_iff_exists.1 (by decide +kernel)
  have hwhole : RunOk (readSys ringSize) (fun _ e => e.Whole) .start lostEvents := by
    decide +kernel
  have hlen : s.taken.length = 12 ∧ s.received.flatten.length = 8 := by
    have hmap := congrArg
      (Option.map fun s => (s.taken.length, s.received.flatten.length)) hs
    have hval := Option.some.inj (hmap.symm.trans
      (show _ = some (12, 8) by decide +kernel))
    exact ⟨congrArg Prod.fst hval, congrArg Prod.snd hval⟩
  have hle := (h s (.of_run hwhole hs)).1.length_le
  omega

end Usbmidi9
