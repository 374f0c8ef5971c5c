/-
  USBMIDI9 — the byte ring of the class driver (`classic/ring.h`,
  `classic/ring.c`).

  `head` and `tail` are 32-bit counters that only grow; the slot of a counter is
  its low bits, and the used count is the wrapped difference.  The functions
  copy in two pieces, up to the end of the memory and from its start.

  * `Ring.Wf` says that the used count is at most the size, `Ring.queue` lists
    the stored entries;
  * `um9RingEnqueue_spec` and `um9RingDequeue_spec`: on a well-formed ring the
    functions are those of a bounded queue that drops what does not fit.

  The entries are of any type: the driver stores bytes, and the results about
  interleavings store bytes that carry an identity.
-/
import Usbmidi9.Lib.Window

namespace Usbmidi9

/-- The range of `unsigned`. -/
abbrev u32Size : ℕ := 2 ^ 32

/-- `a - b` on `unsigned`. -/
def sub32 (a b : ℕ) : ℕ := (a + (u32Size - b % u32Size)) % u32Size

/-- `kUSBMIDI9RingSize`. -/
abbrev ringSize : ℕ := 4096

/-- A ring: its memory, none while it is `NULL`, and the two counters. -/
structure Ring (α : Type*) where
  buf : Option (ℕ → α)
  head : ℕ
  tail : ℕ
deriving Inhabited

variable {α : Type*}

/-- `is_power_of_two`. -/
def isPowerOfTwo (n : ℕ) : Bool := n ≠ 0 ∧ n &&& (n - 1) = 0

/-- `um9_ring_reset`. -/
def um9RingReset (r : Ring α) : Ring α := { r with head := 0, tail := 0 }

/-- `um9_ring_used`. -/
def um9RingUsed (size : ℕ) (r : Ring α) : ℕ :=
  if isPowerOfTwo size then sub32 r.tail r.head else 0

/-- Store entries into consecutive slots. -/
def store (buf : ℕ → α) (off : ℕ) : List α → ℕ → α
  | [] => buf
  | x :: xs => store (Function.update buf off x) (off + 1) xs

/-- Load `n` consecutive slots. -/
def load (buf : ℕ → α) (off n : ℕ) : List α := (List.range n).map fun i => buf (off + i)

/-- `um9_ring_enqueue`: the ring, and the number of entries stored. -/
def um9RingEnqueue (size : ℕ) (r : Ring α) (data : List α) : Ring α × ℕ :=
  match r.buf with
  | none => (r, 0)
  | some buf =>
    if isPowerOfTwo size = false ∨ data.length = 0 then (r, 0)
    else
      let used := sub32 r.tail r.head
      let n := if data.length < sub32 size used then data.length else sub32 size used
      if n = 0 then (r, 0)
      else
        let tailOff := r.tail &&& (size - 1)
        let free1 := size - tailOff
        let buf := if n ≤ free1 then store buf tailOff (data.take n)
          else store (store buf tailOff (data.take free1)) 0 ((data.drop free1).take (n - free1))
        ({ r with buf := some buf, tail := (r.tail + n) % u32Size }, n)

/-- `um9_ring_dequeue`: the ring, and the entries copied out. -/
def um9RingDequeue (size : ℕ) (r : Ring α) (max : ℕ) : Ring α × List α :=
  match r.buf with
  | none => (r, [])
  | some buf =>
    if isPowerOfTwo size = false ∨ max = 0 then (r, [])
    else
      let used := sub32 r.tail r.head
      let n := if max < used then max else used
      if n = 0 then (r, [])
      else
        let headOff := r.head &&& (size - 1)
        let avail1 := size - headOff
        let out := if n ≤ avail1 then load buf headOff n
          else load buf headOff avail1 ++ load buf 0 (n - avail1)
        ({ r with head := (r.head + n) % u32Size }, out)

/-! ## Sizes and counters -/

/-- The sizes the functions accept, half the counters' range at most. -/
def RingSize (size : ℕ) : Prop := ∃ k < 32, size = 2 ^ k

namespace RingSize
variable {size : ℕ} (h : RingSize size)
include h

theorem pos : 0 < size := by
  obtain ⟨k, -, rfl⟩ := h; exact Nat.two_pow_pos k

theorem lt : size < u32Size := by
  obtain ⟨k, hk, rfl⟩ := h; exact Nat.pow_lt_pow_right (by decide) hk

theorem dvd : size ∣ u32Size := by
  obtain ⟨k, hk, rfl⟩ := h; exact Nat.pow_dvd_pow 2 (by omega)

/-- Masking a counter takes its slot. -/
theorem mask (n : ℕ) : n &&& (size - 1) = n % size := by
  obtain ⟨k, -, rfl⟩ := h; exact Nat.and_two_pow_sub_one_eq_mod n k

theorem isPowerOfTwo : isPowerOfTwo size = true := by
  have h0 := h.pos
  have hm : size &&& (size - 1) = 0 := by rw [h.mask, Nat.mod_self]
  simp [Usbmidi9.isPowerOfTwo, hm]; omega

end RingSize

theorem ringSize_ok : RingSize ringSize := ⟨12, by decide, rfl⟩

theorem sub32_of_le {a b : ℕ} (ha : a < u32Size) (hb : b ≤ a) : sub32 a b = a - b := by
  simp only [sub32, u32Size] at *; omega

/-- The difference of two counters is how far the first is ahead. -/
theorem sub32_add (h : ℕ) {n : ℕ} (hn : n < u32Size) : sub32 ((h + n) % u32Size) h = n := by
  simp only [sub32, u32Size] at *; omega

/-! ## Copies in two pieces -/

theorem store_eq_fill (size : ℕ) {buf : ℕ → α} {off : ℕ} {xs : List α}
    (h : off + xs.length ≤ size) : store buf off xs = fill buf size off xs := by
  induction xs generalizing buf off with
  | nil => rfl
  | cons x xs ih =>
    simp only [List.length_cons] at h
    rw [store, fill, Nat.mod_eq_of_lt (by omega), ih (by omega)]

/-- The two stores of `um9_ring_enqueue` are one wrapping fill. -/
theorem store_two {size t : ℕ} (hs : 0 < size) (buf : ℕ → α) (xs : List α)
    (hn : xs.length ≤ size) :
    (if xs.length ≤ size - t % size then store buf (t % size) xs
      else store (store buf (t % size) (xs.take (size - t % size))) 0
        (xs.drop (size - t % size))) = fill buf size t xs := by
  have ht := Nat.mod_lt t hs
  have hmod : ∀ (b : ℕ → α) (ys : List α), fill b size (t % size) ys = fill b size t ys :=
    fun b ys => fill_mod dvd_rfl (Nat.mod_mod t size)
  split_ifs with h
  · rw [store_eq_fill size (by omega), hmod]
  · have htake : (xs.take (size - t % size)).length = size - t % size :=
      List.length_take_of_le (by omega)
    have h1 : store buf (t % size) (xs.take (size - t % size)) =
        fill buf size (t % size) (xs.take (size - t % size)) := store_eq_fill size (by omega)
    rw [store_eq_fill size (by simp only [List.length_drop]; omega), h1, hmod]
    conv_rhs => rw [← List.take_append_drop (size - t % size) xs, fill_append]
    apply fill_mod (m := size) dvd_rfl
    rw [htake, Nat.zero_mod, ← Nat.mod_add_mod, Nat.add_sub_cancel' ht.le, Nat.mod_self]

/-- The two loads of `um9_ring_dequeue` are one window. -/
theorem load_two {size h n : ℕ} (hs : 0 < size) (buf : ℕ → α) (hn : n ≤ size) :
    (if n ≤ size - h % size then load buf (h % size) n
      else load buf (h % size) (size - h % size) ++ load buf 0 (n - (size - h % size))) =
      window buf size h n := by
  have hh := Nat.mod_lt h hs
  split_ifs with hle
  · rw [window_straight _ _ (by omega)]; rfl
  · obtain ⟨k, hk⟩ := Nat.exists_eq_add_of_le (show size - h % size ≤ n by omega)
    have h0 : (h + (size - h % size)) % size = 0 := by
      rw [← Nat.mod_add_mod, Nat.add_sub_cancel' hh.le, Nat.mod_self]
    rw [hk, window_add, window_straight (h := h) _ _ (by omega),
      window_straight (h := h + _) _ _ (by omega), h0, Nat.add_sub_cancel_left]
    rfl

/-! ## The ring as a bounded queue -/

namespace Ring
variable {size : ℕ} {r : Ring α}

/-- The memory is there and the used count is at most the size. -/
structure Wf (size : ℕ) (r : Ring α) : Prop where
  buf : r.buf.isSome
  head : r.head < u32Size
  tail : r.tail < u32Size
  used : sub32 r.tail r.head ≤ size

/-- The stored entries, oldest first. -/
def queue (size : ℕ) (r : Ring α) : List α :=
  match r.buf with
  | none => []
  | some buf => window buf size r.head (sub32 r.tail r.head)

theorem length_queue (h : r.Wf size) : (r.queue size).length = sub32 r.tail r.head := by
  obtain ⟨buf, hb⟩ := Option.isSome_iff_exists.1 h.buf
  simp only [queue, hb, length_window]

theorem length_queue_le (h : r.Wf size) : (r.queue size).length ≤ size :=
  (length_queue h).trans_le h.used

/-- The tail is the head and the used count. -/
theorem Wf.tail_eq (h : r.Wf size) : r.tail = (r.head + sub32 r.tail r.head) % u32Size := by
  have h1 := h.head
  have h2 := h.tail
  simp only [sub32, u32Size] at *; omega

end Ring

theorem um9RingUsed_eq {size : ℕ} (hs : RingSize size) {r : Ring α} (h : r.Wf size) :
    um9RingUsed size r = (r.queue size).length := by
  rw [um9RingUsed, if_pos hs.isPowerOfTwo, Ring.length_queue h]

/-- A used count that moved by `n` at the tail. -/
theorem Ring.Wf.push {size : ℕ} (hs : RingSize size) {r : Ring α} (h : r.Wf size) {n : ℕ}
    (hn : sub32 r.tail r.head + n ≤ size) :
    sub32 ((r.tail + n) % u32Size) r.head = sub32 r.tail r.head + n := by
  conv_lhs => rw [h.tail_eq]
  rw [Nat.mod_add_mod, Nat.add_assoc, sub32_add _ (hn.trans_lt hs.lt)]

/-- A used count that moved by `n` at the head. -/
theorem Ring.Wf.pop {size : ℕ} {r : Ring α} (h : r.Wf size) {n : ℕ}
    (hn : n ≤ sub32 r.tail r.head) :
    sub32 r.tail ((r.head + n) % u32Size) = sub32 r.tail r.head - n := by
  have h1 := h.head
  have h2 := h.tail
  simp only [sub32, u32Size] at *; omega

/-- **Enqueue** appends what fits. -/
theorem um9RingEnqueue_spec {size : ℕ} (hs : RingSize size) {r : Ring α} (h : r.Wf size)
    (data : List α) :
    (um9RingEnqueue size r data).1.Wf size ∧
      (um9RingEnqueue size r data).1.queue size =
        r.queue size ++ data.take (size - (r.queue size).length) ∧
      (um9RingEnqueue size r data).2 = min data.length (size - (r.queue size).length) ∧
      (um9RingEnqueue size r data).1.head = r.head := by
  obtain ⟨buf, hb⟩ := Option.isSome_iff_exists.1 h.buf
  have hlen := Ring.length_queue h
  have hfree : sub32 size (sub32 r.tail r.head) = size - sub32 r.tail r.head :=
    sub32_of_le hs.lt h.used
  rw [hlen]
  rcases Nat.eq_zero_or_pos (min data.length (size - sub32 r.tail r.head)) with h0 | h0
  · have hid : um9RingEnqueue size r data = (r, 0) := by
      simp only [um9RingEnqueue, hb, hfree]
      split_ifs <;> first | rfl | omega
    have hnil : data.take (size - sub32 r.tail r.head) = [] := by
      rw [List.take_eq_nil_iff, ← List.length_eq_zero_iff]; omega
    rw [hid, hnil, List.append_nil, h0]
    exact ⟨h, rfl, rfl, rfl⟩
  · set n := min data.length (size - sub32 r.tail r.head) with hn
    have htake : data.take (size - sub32 r.tail r.head) = data.take n := by
      rcases Nat.le_total data.length (size - sub32 r.tail r.head) with hl | hl
      · rw [hn, Nat.min_eq_left hl, List.take_of_length_le hl, List.take_length]
      · rw [hn, Nat.min_eq_right hl]
    have hxs : (data.take n).length = n := List.length_take_of_le (by omega)
    have htwo := store_two (t := r.tail) hs.pos buf (data.take n) (by omega)
    have hres : um9RingEnqueue size r data =
        ({ r with buf := some (fill buf size r.tail (data.take n)),
                  tail := (r.tail + n) % u32Size }, n) := by
      rw [hxs, List.take_take, List.drop_take] at htwo
      have hmin : (if data.length < size - sub32 r.tail r.head then data.length
          else size - sub32 r.tail r.head) = n := by split_ifs <;> omega
      simp only [um9RingEnqueue, hb, hs.isPowerOfTwo, hfree, hmin, hs.mask, ← htwo]
      rw [if_neg (by simp only [Bool.true_eq_false, false_or]; omega), if_neg (by omega)]
      split_ifs with hf
      · rfl
      · rw [Nat.min_eq_left (by omega)]
    have hroom : sub32 r.tail r.head + n ≤ size := by have := h.used; omega
    have hpush := h.push hs hroom
    rw [hres, htake]
    refine ⟨⟨rfl, h.head, Nat.mod_lt _ (by decide), hpush.trans_le hroom⟩, ?_, rfl, rfl⟩
    have hfill : fill buf size r.tail (data.take n) =
        fill buf size (r.head + sub32 r.tail r.head) (data.take n) :=
      fill_mod hs.dvd (by conv_lhs => rw [h.tail_eq, Nat.mod_mod])
    simp only [Ring.queue, hb, hpush, hfill]
    rw [← window_fill (data.take n) (by omega), hxs]

/-- **Dequeue** takes from the front. -/
theorem um9RingDequeue_spec {size : ℕ} (hs : RingSize size) {r : Ring α} (h : r.Wf size)
    (max : ℕ) :
    (um9RingDequeue size r max).1.Wf size ∧
      (um9RingDequeue size r max).2 = (r.queue size).take max ∧
      (um9RingDequeue size r max).1.queue size = (r.queue size).drop max ∧
      (um9RingDequeue size r max).1.tail = r.tail := by
  obtain ⟨buf, hb⟩ := Option.isSome_iff_exists.1 h.buf
  have hlen := Ring.length_queue h
  rcases Nat.eq_zero_or_pos (min max (sub32 r.tail r.head)) with h0 | h0
  · have hid : um9RingDequeue size r max = (r, []) := by
      simp only [um9RingDequeue, hb]
      split_ifs <;> first | rfl | omega
    have hor : max = 0 ∨ r.queue size = [] := by
      rw [← List.length_eq_zero_iff, hlen]; omega
    rw [hid]
    rcases hor with rfl | hq
    · exact ⟨h, rfl, rfl, rfl⟩
    · simp [hq, h]
  · set n := min max (sub32 r.tail r.head) with hn
    have hle : n ≤ sub32 r.tail r.head := by omega
    have htwo := load_two (h := r.head) hs.pos buf (n := n) (by have := h.used; omega)
    have hres : um9RingDequeue size r max =
        ({ r with head := (r.head + n) % u32Size }, window buf size r.head n) := by
      have hmin : (if max < sub32 r.tail r.head then max else sub32 r.tail r.head) = n := by
        split_ifs <;> omega
      simp only [um9RingDequeue, hb, hs.isPowerOfTwo, hmin, hs.mask, htwo]
      rw [if_neg (by simp only [Bool.true_eq_false, false_or]; omega), if_neg (by omega)]
    have hpop := h.pop hle
    have htake : (r.queue size).take max = (r.queue size).take n := by
      rw [List.take_eq_take_min, hlen]
    have hdrop : (r.queue size).drop max = (r.queue size).drop n := by
      rw [List.drop_eq_drop_min, hlen]
    rw [hres, htake, hdrop]
    refine ⟨⟨h.buf, Nat.mod_lt _ (by decide), h.tail, ?_⟩, ?_, ?_, rfl⟩
    · rw [hpop]; have := h.used; omega
    · simp only [Ring.queue, hb, window_take _ _ _ hle]
    · simp only [Ring.queue, hb, hpop, window_drop _ _ _ hle, window_mod _ _ hs.dvd]

/-- The head moves over the oldest `n` entries. -/
theorem Ring.Wf.dequeued {size : ℕ} (hs : RingSize size) {r : Ring α} (h : r.Wf size) {n : ℕ}
    (hn : n ≤ (r.queue size).length) :
    ({ r with head := (r.head + n) % u32Size } : Ring α).Wf size ∧
      ({ r with head := (r.head + n) % u32Size } : Ring α).queue size = (r.queue size).drop n := by
  obtain ⟨buf, hb⟩ := Option.isSome_iff_exists.1 h.buf
  rw [Ring.length_queue h] at hn
  have hpop := h.pop hn
  refine ⟨⟨h.buf, Nat.mod_lt _ (by decide), h.tail, ?_⟩, ?_⟩
  · rw [hpop]
    exact (Nat.sub_le _ _).trans h.used
  · simp only [Ring.queue, hb, hpop]
    rw [window_drop _ _ _ hn, window_mod _ _ hs.dvd]

/-- The two-piece index of the copy loops is the slot of the counter. -/
theorem copy_slot {size h i : ℕ} (hi : i < size) :
    (if i < size - h % size then h % size + i else i - (size - h % size)) = (h + i) % size := by
  have hh := Nat.mod_lt h (Nat.zero_lt_of_lt hi)
  rw [show (h + i) % size = (h % size + i) % size from (Nat.mod_add_mod ..).symm]
  generalize h % size = k at hh
  split_ifs with hlt
  · rw [Nat.mod_eq_of_lt (by omega)]
  · rw [Nat.mod_eq_sub_mod (by omega), Nat.mod_eq_of_lt (by omega)]; omega

/-- The next byte of the queue. -/
theorem queue_take_succ {size : ℕ} {r : Ring α} {buf : ℕ → α}
    (hb : r.buf = some buf) {i : ℕ} (hi : i < (r.queue size).length) :
    (r.queue size).take (i + 1) = (r.queue size).take i ++ [buf ((r.head + i) % size)] := by
  have hq : r.queue size = window buf size r.head (sub32 r.tail r.head) := by
    simp only [Ring.queue, hb]
  rw [hq, length_window] at hi
  rw [hq, window_take _ _ _ (k := i + 1) hi, window_take _ _ _ hi.le, window_add, window_one]

/-- A full ring stores nothing. -/
theorem um9RingEnqueue_full {size : ℕ} (hs : RingSize size) {r : Ring α} (h : r.Wf size)
    (hfull : sub32 r.tail r.head = size) (data : List α) : (um9RingEnqueue size r data).1 = r := by
  obtain ⟨buf, hb⟩ := Option.isSome_iff_exists.1 h.buf
  have hfree : sub32 size size = 0 := by rw [sub32_of_le hs.lt le_rfl, Nat.sub_self]
  simp only [um9RingEnqueue, hb, hfull, hfree]
  split_ifs <;> first | rfl | omega

/-! ## Draining -/

/-- The consumer's loop: dequeue up to `max` entries and process them, until
    there is none.  `n` bounds the dequeues. -/
def drainRing {σ : Type*} (size max : ℕ) (body : σ → List α → σ) :
    ℕ → Ring α → σ → Ring α × σ
  | 0, r, s => (r, s)
  | n + 1, r, s => match um9RingDequeue size r max with
    | (r', []) => (r', s)
    | (r', x :: xs) => drainRing size max body n r' (body s (x :: xs))

/-- **Draining** processes the queue in chunks of `max` entries, the last of which
    may be shorter but not empty, and leaves it empty. -/
theorem drainRing_spec {σ : Type*} {size max : ℕ} (hs : RingSize size) (hm : 0 < max)
    (body : σ → List α → σ) {n : ℕ} {r : Ring α} (h : r.Wf size)
    (hn : (r.queue size).length < n) (s : σ) :
    ∃ (r' : Ring α) (chunks : List (List α)),
      drainRing size max body n r s = (r', chunks.foldl body s) ∧
      r'.Wf size ∧ r'.queue size = [] ∧ r'.tail = r.tail ∧
      chunks.flatten = r.queue size ∧ (∀ c ∈ chunks, c ≠ []) ∧
      ∀ c ∈ chunks.dropLast, c.length = max := by
  induction n generalizing r s with
  | zero => omega
  | succ n ih =>
    obtain ⟨h1, h2, h3, h4⟩ := um9RingDequeue_spec hs h max
    rcases hd : um9RingDequeue size r max with ⟨r', out⟩
    rw [hd] at h1 h2 h3 h4
    simp only at h1 h2 h3 h4
    cases hout : out with
    | nil =>
      have hnil : r.queue size = [] := by
        rw [hout] at h2
        exact (List.take_eq_nil_iff.1 h2.symm).resolve_left hm.ne'
      refine ⟨r', [], by simp only [drainRing, hd, hout, List.foldl_nil], h1, ?_, h4, ?_, nofun, nofun⟩
      · rw [h3, hnil, List.drop_nil]
      · rw [hnil, List.flatten_nil]
    | cons x xs =>
      have hlen : (r'.queue size).length < n := by
        have hx := congrArg List.length (hout ▸ h2)
        simp only [List.length_cons, List.length_take] at hx
        rw [h3, List.length_drop]; omega
      obtain ⟨r'', chunks, e1, e2, e3, e4, e5, e6, e7⟩ := ih h1 hlen (body s (x :: xs))
      refine ⟨r'', (x :: xs) :: chunks, by simp only [drainRing, hd, hout, e1, List.foldl_cons],
        e2, e3, e4.trans h4, ?_, List.forall_mem_cons.2 ⟨List.cons_ne_nil x xs, e6⟩, ?_⟩
      · rw [List.flatten_cons, e5, h3, ← hout, h2, List.take_append_drop]
      · cases chunks with
        | nil => exact nofun
        | cons c cs =>
          rw [List.dropLast_cons_cons]
          refine List.forall_mem_cons.2 ⟨?_, e7⟩
          -- something was left for the next chunk
          have hrest : (r'.queue size).length ≠ 0 := by
            intro h0
            have hnil : (c :: cs).flatten = [] := e5.trans (List.length_eq_zero_iff.1 h0)
            exact e6 c List.mem_cons_self (List.flatten_eq_nil_iff.1 hnil c List.mem_cons_self)
          rw [← hout, h2, List.length_take]
          rw [h3, List.length_drop] at hrest
          omega

/-! ## Rings without memory -/

/-- A ring that may not have its memory yet. -/
def Ring.Sound (size : ℕ) (r : Ring α) : Prop := r.buf = none ∨ r.Wf size

theorem Ring.queue_none {size : ℕ} {r : Ring α} (h : r.buf = none) : r.queue size = [] := by
  simp only [Ring.queue, h]

/-- A ring that was just reset. -/
theorem Ring.sound_zero (size : ℕ) {r : Ring α} (hh : r.head = 0) (ht : r.tail = 0) :
    r.Sound size := by
  obtain ⟨buf, head, tail⟩ := r
  obtain rfl : head = 0 := hh
  obtain rfl : tail = 0 := ht
  cases buf with
  | none => exact .inl rfl
  | some buf => exact .inr ⟨rfl, Nat.two_pow_pos 32, Nat.two_pow_pos 32, by simp [sub32]⟩

/-- **Reset** empties the ring. -/
theorem um9RingReset_spec (size : ℕ) (r : Ring α) :
    (um9RingReset r).Sound size ∧ (um9RingReset r).queue size = [] := by
  refine ⟨Ring.sound_zero size rfl rfl, ?_⟩
  obtain ⟨buf, head, tail⟩ := r
  cases buf with
  | none => rfl
  | some buf => simp [um9RingReset, Ring.queue, sub32]

/-- What is in a ring after an enqueue was in it or is new. -/
theorem um9RingEnqueue_sound {size : ℕ} (hs : RingSize size) {r : Ring α} (h : r.Sound size)
    (data : List α) : (um9RingEnqueue size r data).1.Sound size ∧
      ∀ x ∈ (um9RingEnqueue size r data).1.queue size, x ∈ r.queue size ∨ x ∈ data := by
  rcases h with hb | hw
  · have hid : (um9RingEnqueue size r data).1 = r := by simp only [um9RingEnqueue, hb]
    rw [hid]
    exact ⟨.inl hb, fun x hx => .inl hx⟩
  · obtain ⟨h1, h2, -, -⟩ := um9RingEnqueue_spec hs hw data
    refine ⟨.inr h1, ?_⟩
    intro x hx
    rw [h2] at hx
    exact (List.mem_append.1 hx).imp_right List.mem_of_mem_take

/-- Whatever the ring, draining processes a list of chunks. -/
theorem drainRing_foldl {σ : Type*} (size max : ℕ) (body : σ → List α → σ) (n : ℕ) (r : Ring α)
    (s : σ) : ∃ chunks : List (List α), (drainRing size max body n r s).2 = chunks.foldl body s := by
  induction n generalizing r s with
  | zero => exact ⟨[], rfl⟩
  | succ n ih =>
    rcases hd : um9RingDequeue size r max with ⟨r', _ | ⟨x, xs⟩⟩
    · exact ⟨[], by simp only [drainRing, hd, List.foldl_nil]⟩
    · obtain ⟨chunks, hc⟩ := ih r' (body s (x :: xs))
      exact ⟨(x :: xs) :: chunks, by simp only [drainRing, hd, hc, List.foldl_cons]⟩

/-- **Draining** a ring, with as many dequeues as it has bytes and one more. -/
theorem drainRing_sound {σ : Type*} {size max : ℕ} (hs : RingSize size) (hm : 0 < max)
    (body : σ → List α → σ) {r : Ring α} (h : r.Sound size) (s : σ) :
    ∃ (r' : Ring α) (chunks : List (List α)),
      drainRing size max body (um9RingUsed size r + 1) r s = (r', chunks.foldl body s) ∧
      r'.Sound size ∧ r'.queue size = [] ∧ chunks.flatten = r.queue size ∧
      ∀ c ∈ chunks.dropLast, c.length = max := by
  rcases h with hb | hw
  · refine ⟨r, [], ?_, .inl hb, Ring.queue_none hb, by rw [Ring.queue_none hb]; rfl, ?_⟩
    · simp only [drainRing, um9RingDequeue, hb, List.foldl_nil]
    · exact fun _ hc => absurd hc List.not_mem_nil
  · obtain ⟨r', chunks, h1, h2, h3, -, h5, -, h6⟩ := drainRing_spec hs hm body hw
      (n := um9RingUsed size r + 1) (by rw [um9RingUsed_eq hs hw]; omega) s
    exact ⟨r', chunks, h1, .inr h2, h3, h5, h6⟩

end Usbmidi9
