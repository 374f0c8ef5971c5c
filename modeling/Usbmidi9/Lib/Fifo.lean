/-
  A bounded first-in first-out queue, as a Mealy machine, machines behind one, and
  units of several entries that go through a queue.

  * `fifo capacity` appends what fits and removes from the front; its answers say
    how many entries were stored, or which were removed;
  * `M.buffered capacity` is a machine whose outputs go through such a queue;
  * `Framed units out q` says that what left a queue and what it holds are whole
    units, in their order, so that the others were dropped whole.  It is kept as
    long as whole units come and go (`Framed.enqueue`, `Framed.dequeue`).
-/
import Usbmidi9.Lib.Mealy

namespace Usbmidi9

variable {α : Type*}

/-- An operation on a queue. -/
inductive FifoOp (α : Type*) where
  | enqueue (data : List α)
  | dequeue (max : ℕ)

/-- What an operation answers. -/
inductive FifoAnswer (α : Type*) where
  | stored (n : ℕ)
  | removed (data : List α)
deriving DecidableEq

/-- The queue of at most `capacity` entries. -/
def fifo (capacity : ℕ) : Mealy (List α) (FifoOp α) (FifoAnswer α) where
  step q op := match op with
    | .enqueue data =>
      (q ++ data.take (capacity - q.length), [.stored (min data.length (capacity - q.length))])
    | .dequeue max => (q.drop max, [.removed (q.take max)])

/-! ## Outputs that wait in a queue -/

/-- Feed a machine, or take one of its outputs. -/
inductive BufferOp (ι : Type*) where
  | feed (i : ι)
  | take
deriving DecidableEq, Repr

/-- The machine whose outputs wait in a queue of at most `capacity` entries.  Its state
    moves whether they fit or not. -/
def Mealy.buffered {σ ι ο : Type*} (M : Mealy σ ι ο) (capacity : ℕ) :
    Mealy (σ × List ο) (BufferOp ι) ο where
  step s op := match op with
    | .feed i =>
      (((M.step s.1 i).1, ((fifo capacity).step s.2 (.enqueue (M.step s.1 i).2)).1), [])
    | .take => ((s.1, ((fifo capacity).step s.2 (.dequeue 1)).1), s.2.take 1)

/-! ## Copies -/

/-- A loop that appends the entries `g 0`, `g 1` and so on to what it copies. -/
theorem iterate_append {σ : Type*} {f : σ → σ} (copying : List α → σ) {g : ℕ → α} {n : ℕ}
    (h : ∀ dst, dst.length < n → f (copying dst) = copying (dst ++ [g dst.length])) {j : ℕ}
    (hj : j ≤ n) : f^[j] (copying []) = copying ((List.range j).map g) := by
  induction j with
  | zero => rfl
  | succ j ih =>
    have hlen : ((List.range j).map g).length = j := by rw [List.length_map, List.length_range]
    rw [Function.iterate_succ_apply', ih (by omega), h _ (by omega), hlen, List.range_succ,
      List.map_append, List.map_singleton]

/-! ## Units of several entries -/

theorem flatten_take_units {k : ℕ} {units : List (List α)} (h : ∀ u ∈ units, u.length = k)
    (m : ℕ) : units.flatten.take (m * k) = (units.take m).flatten := by
  induction units generalizing m with
  | nil => simp
  | cons u us ih =>
    obtain ⟨hu, hus⟩ := List.forall_mem_cons.1 h
    cases m with
    | zero => simp
    | succ m =>
      rw [List.flatten_cons, List.take_succ_cons, List.flatten_cons, ← ih hus, Nat.succ_mul,
        Nat.add_comm, ← hu, List.take_length_add_append]

theorem flatten_drop_units {k : ℕ} {units : List (List α)} (h : ∀ u ∈ units, u.length = k)
    (m : ℕ) : units.flatten.drop (m * k) = (units.drop m).flatten := by
  have hsplit : units.flatten = (units.take m).flatten ++ (units.drop m).flatten := by
    rw [← List.flatten_append, List.take_append_drop]
  have htake := List.take_append_drop (m * k) units.flatten
  rw [flatten_take_units h] at htake
  exact List.append_cancel_left (htake.trans hsplit)

/-- What left a queue and what is in it are whole units of what came, in order. -/
def Framed (units : List (List α)) (out q : List α) : Prop :=
  ∃ left held : List (List α),
    (left ++ held).Sublist units ∧ out = left.flatten ∧ q = held.flatten

namespace Framed
variable {units : List (List α)} {out q : List α} {k : ℕ}

theorem nil : Framed ([] : List (List α)) [] [] := ⟨[], [], .slnil, rfl, rfl⟩

/-- No entry leaves twice. -/
theorem length_le (h : Framed units out q) : out.length + q.length ≤ units.flatten.length := by
  obtain ⟨left, held, hsub, rfl, rfl⟩ := h
  have hle := hsub.flatten.length_le
  rwa [List.flatten_append, List.length_append] at hle

/-- More units come; as many whole ones are stored as there is room for. -/
theorem enqueue (h : Framed units out q) {new : List (List α)} (hnew : ∀ u ∈ new, u.length = k)
    {free : ℕ} (hk : k ∣ free) : Framed (units ++ new) out (q ++ new.flatten.take free) := by
  obtain ⟨left, held, hsub, rfl, rfl⟩ := h
  obtain ⟨m, rfl⟩ := hk
  refine ⟨left, held ++ new.take m, ?_, rfl, ?_⟩
  · rw [← List.append_assoc]
    exact hsub.append (List.take_sublist m new)
  · rw [Nat.mul_comm, flatten_take_units hnew, List.flatten_append]

/-- Whole units go. -/
theorem dequeue (h : Framed units out q) (hunits : ∀ u ∈ units, u.length = k) {n : ℕ}
    (hk : k ∣ n) : Framed units (out ++ q.take n) (q.drop n) := by
  obtain ⟨left, held, hsub, rfl, rfl⟩ := h
  obtain ⟨m, rfl⟩ := hk
  have hheld : ∀ u ∈ held, u.length = k := by
    intro u hu
    exact hunits u (hsub.subset (List.mem_append_right left hu))
  refine ⟨left ++ held.take m, held.drop m, ?_, ?_, ?_⟩
  · rwa [List.append_assoc, List.take_append_drop]
  · rw [Nat.mul_comm, flatten_take_units hheld, List.flatten_append]
  · rw [Nat.mul_comm, flatten_drop_units hheld]

end Framed

end Usbmidi9
