/-
  USBMIDI9 — the byte ring refines a bounded queue.

  `ringMachine` runs `um9_ring_enqueue` and `um9_ring_dequeue` on a ring; started
  anywhere, also with counters about to wrap, it answers every sequence of calls
  as the queue of capacity `size` does (`ring_refines_fifo`).
-/
import Usbmidi9.Classic.Ring
import Usbmidi9.Lib.Fifo

namespace Usbmidi9

variable {α : Type*} {size : ℕ}

/-- The two calls on a ring. -/
def ringMachine (size : ℕ) : Mealy (Ring α) (FifoOp α) (FifoAnswer α) where
  step r op := match op with
    | .enqueue data =>
      ((um9RingEnqueue size r data).1, [.stored (um9RingEnqueue size r data).2])
    | .dequeue max => ((um9RingDequeue size r max).1, [.removed (um9RingDequeue size r max).2])

/-- A well-formed ring holds the entries `q`. -/
def Ring.Holds (size : ℕ) (r : Ring α) (q : List α) : Prop := r.Wf size ∧ r.queue size = q

/-- One call. -/
theorem ringMachine_step (hs : RingSize size) {r : Ring α} {q : List α} (h : r.Holds size q)
    (op : FifoOp α) :
    ((ringMachine size).step r op).2 = ((fifo size).step q op).2 ∧
      ((ringMachine size).step r op).1.Holds size ((fifo size).step q op).1 := by
  obtain ⟨hw, rfl⟩ := h
  cases op with
  | enqueue data =>
    obtain ⟨h1, h2, h3, -⟩ := um9RingEnqueue_spec hs hw data
    exact ⟨congrArg (fun n => [FifoAnswer.stored n]) h3, h1, h2⟩
  | dequeue max =>
    obtain ⟨h1, h2, h3, -⟩ := um9RingDequeue_spec hs hw max
    exact ⟨congrArg (fun out => [FifoAnswer.removed out]) h2, h1, h3⟩

/-- **The ring is a bounded queue.**  Whatever the counters start at and whatever
    is called: the answers are those of the queue of capacity `size`, the used
    count is the length of that queue, and it never exceeds the size. -/
theorem ring_refines_fifo (hs : RingSize size) {r : Ring α} (h : r.Wf size)
    (ops : List (FifoOp α)) :
    (ringMachine size).outs r ops = (fifo size).outs (r.queue size) ops ∧
      ((ringMachine size).final r ops).queue size = (fifo size).final (r.queue size) ops ∧
      um9RingUsed size ((ringMachine size).final r ops) =
        ((fifo size).final (r.queue size) ops).length ∧
      um9RingUsed size ((ringMachine size).final r ops) ≤ size := by
  have hadm : ∀ op ∈ ops, True := fun _ _ => trivial
  obtain ⟨houts, hw, hq⟩ := Mealy.sim (M := ringMachine size) (N := fifo size)
    (R := Ring.Holds size) (fun _ _ op _ hR => ringMachine_step hs hR op) hadm
    (show r.Holds size (r.queue size) from ⟨h, rfl⟩)
  have hused := um9RingUsed_eq hs hw
  refine ⟨houts, hq, ?_, ?_⟩
  · rw [hused, hq]
  · rw [hused]
    exact Ring.length_queue_le hw

/-- A ring of four slots whose tail counter is about to wrap. -/
theorem ring_refines_fifo_wrap :
    let r : Ring UInt8 := ⟨some fun _ => 0, u32Size - 2, u32Size - 1⟩
    let ops : List (FifoOp UInt8) := [.enqueue [1, 2, 3, 4], .dequeue 3, .enqueue [5], .dequeue 9]
    (fifo 4).outs (r.queue 4) ops =
        [[.stored 3], [.removed [0, 1, 2]], [.stored 1], [.removed [3, 5]]] ∧
      (ringMachine 4).outs r ops = (fifo 4).outs (r.queue 4) ops ∧
      ((ringMachine 4).final r ops).queue 4 = (fifo 4).final (r.queue 4) ops ∧
      um9RingUsed 4 ((ringMachine 4).final r ops) = ((fifo 4).final (r.queue 4) ops).length ∧
      um9RingUsed 4 ((ringMachine 4).final r ops) ≤ 4 :=
  ⟨by decide, ring_refines_fifo ⟨2, by decide, rfl⟩
    ⟨rfl, by decide, by decide, by decide⟩ _⟩

end Usbmidi9
