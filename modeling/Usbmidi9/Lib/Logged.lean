/-
  Programs with a state and a log.

  `Logged σ ω α` is a program that returns a value, changes a state and logs what it
  does.  Over a state of cells, `readCell`, `writeCell` and `copyCells` log the cells that
  they touch.

  * `Does P Q x`: whatever the state, all that `x` logs satisfies `P` and the value
    satisfies `Q`; its rules follow the program (`Does.bind`, `Does.loop` and so on);
  * `cells_copyCells` and `copyCells_outside` are the cells after a copy.
-/
import Mathlib

namespace Usbmidi9

/-- What a program leaves behind. -/
structure Ran (σ ω α : Type) where
  value : α
  state : σ
  log : List ω

/-- A program. -/
def Logged (σ ω α : Type) : Type := σ → Ran σ ω α

namespace Logged
variable {σ ω α β : Type}

instance : Monad (Logged σ ω) where
  pure a := fun s => ⟨a, s, []⟩
  bind x f := fun s =>
    let r := f (x s).value (x s).state
    ⟨r.value, r.state, (x s).log ++ r.log⟩

@[simp] theorem pure_apply (a : α) (s : σ) : (pure a : Logged σ ω α) s = ⟨a, s, []⟩ := rfl

@[simp] theorem bind_apply (x : Logged σ ω α) (f : α → Logged σ ω β) (s : σ) :
    (x >>= f) s = ⟨(f (x s).value (x s).state).value, (f (x s).value (x s).state).state,
      (x s).log ++ (f (x s).value (x s).state).log⟩ := rfl

/-- Log an entry. -/
def tell (e : ω) : Logged σ ω Unit := fun s => ⟨(), s, [e]⟩

@[simp] theorem tell_apply (e : ω) (s : σ) : tell e s = ⟨(), s, [e]⟩ := rfl

/-- `for (i = 0; i < n; i++)`. -/
def loop (body : ℕ → Logged σ ω Unit) : ℕ → Logged σ ω Unit
  | 0 => pure ()
  | n + 1 => do
    loop body n
    body n

/-! ## What a program does -/

/-- All that is logged satisfies `P`, and the value satisfies `Q`. -/
def Does (P : ω → Prop) (Q : α → Prop) (x : Logged σ ω α) : Prop :=
  ∀ s, (∀ e ∈ (x s).log, P e) ∧ Q (x s).value

namespace Does
variable {P : ω → Prop} {Q : α → Prop} {R : β → Prop}

theorem pure {a : α} (h : Q a) : (pure a : Logged σ ω α).Does P Q := fun _ =>
  ⟨List.forall_mem_nil _, h⟩

theorem tell {e : ω} (h : P e) : (Logged.tell e : Logged σ ω Unit).Does P fun _ => True := fun _ =>
  ⟨List.forall_mem_singleton.2 h, trivial⟩

theorem bind {x : Logged σ ω α} {f : α → Logged σ ω β} (hx : x.Does P Q)
    (hf : ∀ a, Q a → (f a).Does P R) : (x >>= f).Does P R := by
  intro s
  obtain ⟨hlog, hvalue⟩ := hx s
  obtain ⟨hlog', hvalue'⟩ := hf _ hvalue (x s).state
  exact ⟨List.forall_mem_append.2 ⟨hlog, hlog'⟩, hvalue'⟩

theorem ite {c : Prop} [Decidable c] {x y : Logged σ ω α} (hx : c → x.Does P Q)
    (hy : ¬c → y.Does P Q) : (if c then x else y).Does P Q := by
  split_ifs with hc
  · exact hx hc
  · exact hy hc

theorem loop {body : ℕ → Logged σ ω Unit} {n : ℕ}
    (h : ∀ i < n, (body i).Does P fun _ => True) : (Logged.loop body n).Does P fun _ => True := by
  induction n with
  | zero => exact .pure trivial
  | succ n ih =>
    have hfirst := ih fun i hi => h i (Nat.lt_succ_of_lt hi)
    exact hfirst.bind fun _ _ => h n (Nat.lt_succ_self n)

end Does

/-! ## Cells -/

section
variable {κ : Type} (access : κ → ω)

/-- What `n` cells hold. -/
def cells (m : κ → β) (cell : ℕ → κ) (n : ℕ) : List β := (List.range n).map fun i => m (cell i)

/-- Read a cell. -/
def readCell (k : κ) : Logged (κ → β) ω β := fun m => ⟨m k, m, [access k]⟩

@[simp] theorem readCell_apply (k : κ) (m : κ → β) :
    readCell access k m = ⟨m k, m, [access k]⟩ := rfl

/-- Read `n` cells. -/
def readCells (cell : ℕ → κ) : ℕ → Logged (κ → β) ω (List β)
  | 0 => pure []
  | n + 1 => do
    let l ← readCells cell n
    let b ← readCell access (cell n)
    return l ++ [b]

@[simp] theorem readCells_apply (cell : ℕ → κ) (n : ℕ) (m : κ → β) :
    readCells access cell n m = ⟨cells m cell n, m, (List.range n).map (access <| cell ·)⟩ := by
  induction n with
  | zero => rfl
  | succ n ih => simp [readCells, ih, cells, List.range_succ]

/-- Write a cell. -/
def writeCell [DecidableEq κ] (k : κ) (b : β) : Logged (κ → β) ω Unit := fun m =>
  ⟨(), Function.update m k b, [access k]⟩

/-- `dst[i] = src[i]`, for `n` indices. -/
def copyCells [DecidableEq κ] (src dst : ℕ → κ) (n : ℕ) : Logged (κ → β) ω Unit :=
  loop (fun i => do writeCell access (dst i) (← readCell access (src i))) n

@[simp] theorem length_cells (m : κ → β) (cell : ℕ → κ) (n : ℕ) :
    (cells m cell n).length = n := by simp [cells]

theorem getD_cells (m : κ → β) (cell : ℕ → κ) {n i : ℕ} (h : i < n) (b : β) :
    (cells m cell n).getD i b = m (cell i) := by
  rw [List.getD_eq_getElem _ _ (by rw [length_cells]; exact h)]
  simp [cells]

theorem cells_congr {m m' : κ → β} {cell cell' : ℕ → κ} {n : ℕ}
    (h : ∀ i < n, m (cell i) = m' (cell' i)) : cells m cell n = cells m' cell' n :=
  List.map_congr_left fun i hi => h i (List.mem_range.1 hi)

theorem cells_succ (m : κ → β) (cell : ℕ → κ) (n : ℕ) :
    cells m cell (n + 1) = m (cell 0) :: cells m (fun i => cell (i + 1)) n := by
  simp [cells, List.range_succ_eq_map]

theorem cells_add (m : κ → β) (cell : ℕ → κ) (n k : ℕ) :
    cells m cell (n + k) = cells m cell n ++ cells m (cell <| n + ·) k := by
  simp [cells, List.range_add]

theorem take_cells {m : κ → β} {cell : ℕ → κ} {n k : ℕ} (h : k ≤ n) :
    (cells m cell n).take k = cells m cell k := by
  obtain ⟨j, rfl⟩ := Nat.exists_eq_add_of_le h
  rw [cells_add]
  exact List.take_left' (length_cells ..)

theorem drop_cells (m : κ → β) (cell : ℕ → κ) (n k : ℕ) :
    (cells m cell (n + k)).drop n = cells m (cell <| n + ·) k := by
  rw [cells_add]
  exact List.drop_left' (length_cells ..)

variable {access} {P : ω → Prop}

theorem Does.readCell {k : κ} (h : P (access k)) :
    (Logged.readCell access k : Logged (κ → β) ω β).Does P fun _ => True := fun _ =>
  ⟨List.forall_mem_singleton.2 h, trivial⟩

theorem Does.readCells {cell : ℕ → κ} {n : ℕ} (h : ∀ i < n, P (access (cell i))) :
    (Logged.readCells access cell n : Logged (κ → β) ω (List β)).Does P fun l => l.length = n := by
  intro m
  rw [readCells_apply]
  refine ⟨?_, by simp [cells]⟩
  intro e he
  obtain ⟨i, hi, rfl⟩ := List.mem_map.1 he
  exact h i (List.mem_range.1 hi)

variable [DecidableEq κ]

theorem Does.writeCell {k : κ} {b : β} (h : P (access k)) :
    (Logged.writeCell access k b).Does P fun _ => True := fun _ =>
  ⟨List.forall_mem_singleton.2 h, trivial⟩

theorem Does.copyCells {src dst : ℕ → κ} {n : ℕ} (hsrc : ∀ i < n, P (access (src i)))
    (hdst : ∀ i < n, P (access (dst i))) :
    (Logged.copyCells access src dst n : Logged (κ → β) ω Unit).Does P fun _ => True :=
  .loop fun i hi => (Does.readCell (hsrc i hi)).bind fun _ _ => .writeCell (hdst i hi)

/-- A copy leaves the other cells alone. -/
theorem copyCells_outside {src dst : ℕ → κ} {n : ℕ} {m : κ → β} {k : κ} (h : ∀ i < n, k ≠ dst i) :
    (copyCells access src dst n m).state k = m k := by
  induction n with
  | zero => rfl
  | succ n ih =>
    have hrest := ih fun i hi => h i (Nat.lt_succ_of_lt hi)
    rw [← hrest]
    exact Function.update_of_ne (h n (Nat.lt_succ_self n)) ..

/-- **A copy** between different arrays. -/
theorem cells_copyCells {src dst : ℕ → κ} (hinj : Function.Injective dst)
    (hne : ∀ i j, src i ≠ dst j) (n : ℕ) (m : κ → β) :
    cells (copyCells access src dst n m).state dst n = cells m src n := by
  refine cells_congr ?_
  induction n with
  | zero => exact fun i hi => absurd hi (Nat.not_lt_zero i)
  | succ n ih =>
    have hstate : (copyCells access src dst (n + 1) m).state =
        Function.update (copyCells access src dst n m).state (dst n)
          ((copyCells access src dst n m).state (src n)) := rfl
    intro i hi
    rw [hstate]
    rcases Nat.lt_succ_iff_lt_or_eq.1 hi with hlt | rfl
    · rw [Function.update_of_ne (hinj.ne hlt.ne), ih i hlt]
    · rw [Function.update_self]
      exact copyCells_outside fun j _ => hne i j

end

end Logged

end Usbmidi9
