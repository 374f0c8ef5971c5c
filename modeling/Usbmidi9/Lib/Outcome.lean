/-
  Computations that return a value, fail with an error, or panic, and the checked
  operations of a language that panics: machine integers, indices, slices, vectors
  and arrays.

  `x.Safe P` says that `x` does not panic and that its value, if it returns one,
  satisfies `P`.  Its rules follow the structure of a program: `Safe.bind`,
  `Safe.mapErr`, `Safe.iterate`, `Safe.foldl`, and one for each checked operation.
  `bind_eq_ok` and its like take a successful run apart.
-/
import Mathlib

namespace Usbmidi9

/-- What a computation comes to. -/
inductive Outcome (ε α : Type) where
  | ok (a : α)
  | err (e : ε)
  | panic
deriving DecidableEq, Repr

namespace Outcome
variable {ε ε' α β : Type}

/-- Go on with the value. -/
def bind : Outcome ε α → (α → Outcome ε β) → Outcome ε β
  | ok a, f => f a
  | err e, _ => err e
  | panic, _ => panic

instance : Monad (Outcome ε) where
  pure := ok
  bind := bind

/-- Change the error. -/
def mapErr (f : ε → ε') : Outcome ε α → Outcome ε' α
  | ok a => ok a
  | err e => err (f e)
  | panic => panic

/-- Look at the error instead of failing. -/
def attempt : Outcome ε α → Outcome ε' (Except ε α)
  | ok a => ok (.ok a)
  | err e => ok (.error e)
  | panic => panic

/-- What cannot fail, in a computation that can. -/
def lift : Outcome Empty α → Outcome ε α := mapErr Empty.elim

/-- Fail unless a condition holds. -/
def ensure (p : Prop) [Decidable p] (e : ε) : Outcome ε Unit := if p then ok () else err e

/-- Do something `n` times. -/
def iterate (f : α → Outcome ε α) : ℕ → α → Outcome ε α
  | 0, a => ok a
  | n + 1, a => f a >>= iterate f n

/-- Do something for every element of a list. -/
def foldl (f : β → α → Outcome ε β) : List α → β → Outcome ε β
  | [], b => ok b
  | a :: l, b => f b a >>= foldl f l

/-- The results of `f i`, `f (i + 1)` and so on, `n` of them. -/
def collect (f : ℕ → Outcome ε α) : ℕ → ℕ → Outcome ε (List α)
  | _, 0 => ok []
  | i, n + 1 => f i >>= fun a => collect f (i + 1) n >>= fun l => ok (a :: l)

@[simp] theorem ok_bind (a : α) (f : α → Outcome ε β) : (ok a >>= f) = f a := rfl
@[simp] theorem err_bind (e : ε) (f : α → Outcome ε β) : (err e >>= f) = err e := rfl
@[simp] theorem panic_bind (f : α → Outcome ε β) : (panic >>= f) = panic := rfl
@[simp] theorem pure_eq (a : α) : (pure a : Outcome ε α) = ok a := rfl

theorem bind_assoc {γ : Type} (x : Outcome ε α) (f : α → Outcome ε β) (g : β → Outcome ε γ) :
    x >>= f >>= g = x >>= fun a => f a >>= g := by
  cases x <;> rfl

/-! ## Successful runs -/

theorem bind_eq_ok {x : Outcome ε α} {f : α → Outcome ε β} {b : β} :
    x >>= f = ok b ↔ ∃ a, x = ok a ∧ f a = ok b := by
  cases x with
  | ok a => simp
  | err e => simp
  | panic => simp

theorem mapErr_eq_ok {x : Outcome ε α} {f : ε → ε'} {a : α} : x.mapErr f = ok a ↔ x = ok a := by
  cases x <;> simp [mapErr]

theorem attempt_eq_ok {x : Outcome ε α} {a : α} :
    (x.attempt : Outcome ε' (Except ε α)) = ok (.ok a) ↔ x = ok a := by
  cases x <;> simp [attempt]

theorem lift_eq_ok {x : Outcome Empty α} {a : α} : (x.lift : Outcome ε α) = ok a ↔ x = ok a :=
  mapErr_eq_ok

theorem ite_eq_ok {p : Prop} [Decidable p] {a b : α} {x : Outcome ε α} (hx : ∀ b, x ≠ ok b) :
    (if p then ok a else x) = ok b ↔ p ∧ b = a := by
  split_ifs with h
  · simp [h, eq_comm]
  · simp [h, hx]

theorem ensure_eq_ok {p : Prop} [Decidable p] {e : ε} {u : Unit} : ensure p e = ok u ↔ p := by
  unfold ensure
  split_ifs with h <;> simp [h]

/-- **Simulation of `iterate`**: what each run of `f` keeps with a run of `g`. -/
theorem of_iterate_eq_ok {f : α → Outcome ε α} {g : β → β} {I : α → β → Prop}
    (hf : ∀ a a' b, I a b → f a = ok a' → I a' (g b)) {n : ℕ} {a a' : α} {b : β} (hI : I a b)
    (hrun : iterate f n a = ok a') : I a' (g^[n] b) := by
  induction n generalizing a b with
  | zero =>
    obtain rfl := ok.inj hrun
    exact hI
  | succ n ih =>
    obtain ⟨a₁, ha₁, hrest⟩ := bind_eq_ok.1 hrun
    exact ih (hf a a₁ b hI ha₁) hrest

/-- **Simulation of `foldl`**, by a fold that cannot fail. -/
theorem foldl_sim {γ : Type} {f : β → α → Outcome ε β} {g : γ → α → γ} {R : β → γ → Prop}
    {l : List α} (hf : ∀ b c, ∀ a ∈ l, R b c → ∃ b', f b a = ok b' ∧ R b' (g c a)) {b : β} {c : γ}
    (h : R b c) : ∃ b', foldl f l b = ok b' ∧ R b' (l.foldl g c) := by
  induction l generalizing b c with
  | nil => exact ⟨b, rfl, h⟩
  | cons a l ih =>
    obtain ⟨b₁, hfirst, hb₁⟩ := hf b c a List.mem_cons_self h
    obtain ⟨b₂, hrest, hb₂⟩ := ih (fun b c a' ha' => hf b c a' (List.mem_cons_of_mem a ha')) hb₁
    refine ⟨b₂, ?_, hb₂⟩
    rw [foldl, hfirst]
    exact hrest

/-- `collect` succeeds if every element does. -/
theorem collect_eq_ok {f : ℕ → Outcome ε α} {i n : ℕ} {l : List α} :
    collect f i n = ok l ↔ l.length = n ∧ ∀ j a, l[j]? = some a → f (i + j) = ok a := by
  induction n generalizing i l with
  | zero =>
    constructor
    · intro h
      obtain rfl := ok.inj h
      simp
    · rintro ⟨hlen, -⟩
      rw [List.eq_nil_of_length_eq_zero hlen]
      rfl
  | succ n ih =>
    rw [collect, bind_eq_ok]
    constructor
    · rintro ⟨a, ha, h⟩
      obtain ⟨rest, hrest, h⟩ := bind_eq_ok.1 h
      obtain rfl := ok.inj h
      obtain ⟨hlen, hall⟩ := ih.1 hrest
      refine ⟨by rw [List.length_cons, hlen], ?_⟩
      rintro (- | j) b hb
      · rw [List.getElem?_cons_zero, Option.some.injEq] at hb
        rw [Nat.add_zero, ha, hb]
      · rw [List.getElem?_cons_succ] at hb
        rw [← hall j b hb, Nat.add_right_comm, Nat.add_assoc]
    · rintro ⟨hlen, hall⟩
      rcases l with - | ⟨a, rest⟩
      · simp at hlen
      · refine ⟨a, hall 0 a rfl, bind_eq_ok.2 ⟨rest, ih.2 ⟨by simpa using hlen, ?_⟩, rfl⟩⟩
        intro j b hb
        rw [← hall (j + 1) b hb, Nat.add_right_comm, Nat.add_assoc]

/-- **A table** that is read entry by entry, `d` apart: its loop succeeds exactly with the
    entries that stand there. -/
theorem iterate_table_eq_ok {step : ℕ × List α → Outcome ε (ℕ × List α)} {R : ℕ → α → Prop} {d : ℕ}
    (hstep : ∀ pos acc s, step (pos, acc) = ok s ↔ ∃ a, R pos a ∧ s = (pos + d, acc ++ [a]))
    {n pos : ℕ} {acc : List α} {s : ℕ × List α} :
    iterate step n (pos, acc) = ok s ↔
      ∃ l : List α, l.length = n ∧ (∀ i a, l[i]? = some a → R (pos + i * d) a) ∧
        s = (pos + n * d, acc ++ l) := by
  induction n generalizing pos acc with
  | zero =>
    constructor
    · intro h
      obtain rfl := ok.inj h
      exact ⟨[], rfl, by simp, by simp⟩
    · rintro ⟨l, hlen, -, rfl⟩
      rw [List.eq_nil_of_length_eq_zero hlen, List.append_nil, Nat.zero_mul, Nat.add_zero]
      rfl
  | succ n ih =>
    have hnext : pos + d + n * d = pos + (n + 1) * d := by rw [Nat.succ_mul]; omega
    rw [iterate, bind_eq_ok]
    constructor
    · rintro ⟨s₁, hs₁, hrest⟩
      obtain ⟨a, ha, rfl⟩ := (hstep pos acc s₁).1 hs₁
      obtain ⟨l, hlen, hall, rfl⟩ := ih.1 hrest
      refine ⟨a :: l, by rw [List.length_cons, hlen], ?_, by simp [hnext]⟩
      rintro (- | i) b hb
      · rw [List.getElem?_cons_zero, Option.some.injEq] at hb
        rwa [Nat.zero_mul, Nat.add_zero, ← hb]
      · rw [List.getElem?_cons_succ] at hb
        have hread := hall i b hb
        rwa [Nat.add_assoc, Nat.add_comm d, ← Nat.succ_mul] at hread
    · rintro ⟨l, hlen, hall, rfl⟩
      rcases l with - | ⟨a, l⟩
      · cases hlen
      · have hfirst := hall 0 a rfl
        rw [Nat.zero_mul, Nat.add_zero] at hfirst
        refine ⟨_, (hstep pos acc _).2 ⟨a, hfirst, rfl⟩, ih.2 ⟨l, by simpa using hlen, ?_, ?_⟩⟩
        · intro i b hb
          rw [Nat.add_assoc, Nat.add_comm d, ← Nat.succ_mul]
          exact hall (i + 1) b hb
        · rw [hnext, List.append_assoc, List.singleton_append]

/-! ## Runs without a panic -/

/-- No panic, and the value satisfies `P`. -/
def Safe (x : Outcome ε α) (P : α → Prop) : Prop :=
  match x with
  | ok a => P a
  | err _ => True
  | panic => False

namespace Safe
variable {x : Outcome ε α} {P Q : α → Prop} {R : β → Prop}

theorem ne_panic (h : x.Safe P) : x ≠ panic := by
  rintro rfl
  exact h

theorem of_eq_ok (h : x.Safe P) {a : α} (ha : x = ok a) : P a := by
  subst ha
  exact h

theorem mono (h : x.Safe P) (hPQ : ∀ a, P a → Q a) : x.Safe Q := by
  cases x with
  | ok a => exact hPQ a h
  | err e => trivial
  | panic => exact h

/-- The value can be named. -/
theorem with_eq (h : x.Safe P) : x.Safe fun a => P a ∧ x = ok a := by
  cases x with
  | ok a => exact ⟨h, rfl⟩
  | err e => trivial
  | panic => exact h

theorem bind {f : α → Outcome ε β} (h : x.Safe P) (hf : ∀ a, P a → (f a).Safe R) :
    (x >>= f).Safe R := by
  cases x with
  | ok a => exact hf a h
  | err e => trivial
  | panic => exact h

theorem mapErr {f : ε → ε'} (h : x.Safe P) : (x.mapErr f).Safe P := by
  cases x with
  | ok a => exact h
  | err e => trivial
  | panic => exact h

theorem lift {x : Outcome Empty α} (h : x.Safe P) : (x.lift : Outcome ε α).Safe P := h.mapErr

/-- What cannot fail returns. -/
theorem exists_eq_ok {x : Outcome Empty α} (h : x.Safe P) : ∃ a, x = ok a ∧ P a := by
  cases x with
  | ok a => exact ⟨a, rfl, h⟩
  | err e => exact e.elim
  | panic => exact h.elim

theorem attempt (h : x.Safe P) :
    (x.attempt : Outcome ε' _).Safe fun r => ∀ a, r = .ok a → P a := by
  cases x with
  | ok a =>
    intro b hb
    cases hb
    exact h
  | err e => nofun
  | panic => exact h

theorem ensure {p : Prop} [Decidable p] {e : ε} : (Outcome.ensure p e).Safe fun _ => p := by
  unfold Outcome.ensure
  split_ifs with h
  · exact h
  · trivial

/-- **The rule for `iterate`**, with an invariant that may count. -/
theorem iterate {f : α → Outcome ε α} {I : ℕ → α → Prop} {n : ℕ}
    (hf : ∀ k < n, ∀ a, I k a → (f a).Safe (I (k + 1))) {a : α} (ha : I 0 a) :
    (Outcome.iterate f n a).Safe (I n) := by
  induction n generalizing a I with
  | zero => exact ha
  | succ n ih =>
    have hstep := hf 0 (Nat.succ_pos n) a ha
    refine hstep.bind ?_
    intro b hb
    exact ih (I := fun k => I (k + 1)) (fun k hk => hf (k + 1) (by omega)) hb

theorem iterate_true {f : α → Outcome ε α} (hf : ∀ a, (f a).Safe fun _ => True) {n : ℕ} {a : α} :
    (Outcome.iterate f n a).Safe fun _ => True :=
  iterate (I := fun _ _ => True) (fun _ _ a _ => hf a) trivial

/-- **The rule for `foldl`**, with an invariant that may count. -/
theorem foldl {f : β → α → Outcome ε β} {I : ℕ → β → Prop} {l : List α}
    (hf : ∀ k b, ∀ a ∈ l, k < l.length → I k b → (f b a).Safe (I (k + 1))) {b : β} (hb : I 0 b) :
    (Outcome.foldl f l b).Safe (I l.length) := by
  induction l generalizing b I with
  | nil => exact hb
  | cons a l ih =>
    have hstep := hf 0 b a List.mem_cons_self (Nat.succ_pos _) hb
    refine hstep.bind ?_
    intro b' hb'
    refine ih (I := fun k => I (k + 1)) ?_ hb'
    intro k b a' ha' hk
    exact hf (k + 1) b a' (List.mem_cons_of_mem a ha') (Nat.succ_lt_succ hk)

/-- **The rule for `collect`**. -/
theorem collect {f : ℕ → Outcome ε α} {i n : ℕ} (hf : ∀ j, j < i + n → (f j).Safe P) :
    (Outcome.collect f i n).Safe fun l => l.length = n ∧ ∀ a ∈ l, P a := by
  induction n generalizing i with
  | zero => exact ⟨rfl, nofun⟩
  | succ n ih =>
    have hfirst := hf i (by omega)
    refine hfirst.bind ?_
    intro a ha
    have hrest := ih (i := i + 1) fun j hj => hf j (by omega)
    refine hrest.bind ?_
    rintro l ⟨hl, hall⟩
    refine ⟨congrArg Nat.succ hl, ?_⟩
    intro x hx
    rcases List.mem_cons.1 hx with rfl | hx
    · exact ha
    · exact hall x hx

end Safe

/-! ## Errors -/

/-- An error satisfies `Q`. -/
def Errs (x : Outcome ε α) (Q : ε → Prop) : Prop := ∀ e, x = err e → Q e

namespace Errs
variable {x : Outcome ε α} {P : α → Prop} {Q : ε → Prop}

theorem of_eq_ok {a : α} (h : x = ok a) : x.Errs Q := by
  rintro e rfl
  cases h

theorem of_panic (h : x = panic) : x.Errs Q := by
  rintro e rfl
  cases h

theorem of_err {e : ε} (h : Q e) : (err e : Outcome ε α).Errs Q := by
  intro e' he'
  obtain rfl := err.inj he'
  exact h

/-- What follows a value that is returned. -/
theorem bind_of {f : α → Outcome ε β} (h : x.Errs Q) (hf : ∀ a, x = ok a → (f a).Errs Q) :
    (x >>= f).Errs Q := by
  cases x with
  | ok a => exact hf a rfl
  | err e => exact of_err (h e rfl)
  | panic => exact of_panic rfl

theorem bind {f : α → Outcome ε β} (h : x.Errs Q) (hP : x.Safe P) (hf : ∀ a, P a → (f a).Errs Q) :
    (x >>= f).Errs Q := by
  refine h.bind_of fun a ha => ?_
  exact hf a (hP.of_eq_ok ha)

theorem bind_all {f : α → Outcome ε β} (h : x.Errs Q) (hf : ∀ a, (f a).Errs Q) :
    (x >>= f).Errs Q := h.bind_of fun a _ => hf a

theorem mapErr {x : Outcome ε' α} {f : ε' → ε} (h : ∀ e, Q (f e)) : (x.mapErr f).Errs Q := by
  cases x with
  | ok a => exact of_eq_ok rfl
  | err e' => exact of_err (h e')
  | panic => exact of_panic rfl

/-- **The rule for `iterate`**, with the invariant of its runs without a panic. -/
theorem iterate {f : α → Outcome ε α} {I : ℕ → α → Prop} {n : ℕ}
    (hf : ∀ k < n, ∀ a, I k a → (f a).Safe (I (k + 1)))
    (hQ : ∀ k < n, ∀ a, I k a → (f a).Errs Q) {a : α} (ha : I 0 a) :
    (Outcome.iterate f n a).Errs Q := by
  induction n generalizing a I with
  | zero => exact of_eq_ok rfl
  | succ n ih =>
    refine (hQ 0 (Nat.succ_pos n) a ha).bind (hf 0 (Nat.succ_pos n) a ha) ?_
    intro b hb
    exact ih (I := fun k => I (k + 1)) (fun k hk => hf (k + 1) (by omega))
      (fun k hk => hQ (k + 1) (by omega)) hb

theorem iterate_all {f : α → Outcome ε α} (hf : ∀ a, (f a).Errs Q) {n : ℕ} {a : α} :
    (Outcome.iterate f n a).Errs Q := by
  induction n generalizing a with
  | zero => exact of_eq_ok rfl
  | succ n ih => exact (hf a).bind_all fun b => ih

end Errs

/-! ## Machine integers -/

/-- The number of values of a 64-bit word, and the greatest length of an object. -/
abbrev wordSize : ℕ := 2 ^ 64
abbrev isizeMax : ℕ := 2 ^ 63 - 1

theorem isizeMax_eq : isizeMax = 2 ^ 63 - 1 := rfl

/-- The result of an operation on 64-bit words that must not overflow. -/
def word (n : ℕ) : Outcome ε ℕ := if n < wordSize then ok n else panic

theorem word_eq {n : ℕ} (h : n < wordSize) : (word n : Outcome ε ℕ) = ok n := if_pos h

theorem word_eq_ok {n m : ℕ} : (word n : Outcome ε ℕ) = ok m ↔ n < wordSize ∧ m = n := by
  unfold word
  split_ifs with h
  · simp [h, eq_comm]
  · simp [h]

theorem Errs.word {n : ℕ} {Q : ε → Prop} : (Outcome.word n).Errs Q := by
  unfold Outcome.word
  split_ifs
  · exact of_eq_ok rfl
  · exact of_panic rfl

/-- Lengths and what is less. -/
theorem word_eq_of_le {n : ℕ} (h : n ≤ isizeMax) : (word n : Outcome ε ℕ) = ok n :=
  word_eq (lt_of_le_of_lt h (by decide))

/-- A subtraction that must not underflow. -/
def wordSub (a b : ℕ) : Outcome ε ℕ := if b ≤ a then ok (a - b) else panic

theorem wordSub_eq {a b : ℕ} (h : b ≤ a) : (wordSub a b : Outcome ε ℕ) = ok (a - b) := if_pos h

/-- A 64-bit addition that saturates. -/
def saturatingAdd (a b : ℕ) : ℕ := min (a + b) (wordSize - 1)

/-- 64-bit operations that say whether they overflow. -/
def checkedAdd (a b : ℕ) : Option ℕ := if a + b < wordSize then some (a + b) else none
def checkedMul (a b : ℕ) : Option ℕ := if a * b < wordSize then some (a * b) else none

theorem checkedAdd_eq_some {a b n : ℕ} :
    checkedAdd a b = some n ↔ a + b = n ∧ n < wordSize := by
  unfold checkedAdd
  split_ifs with h
  · rw [Option.some.injEq]
    constructor
    · rintro rfl
      exact ⟨rfl, h⟩
    · exact And.left
  · simp only [false_iff, not_and]
    rintro rfl
    exact h

theorem checkedMul_eq_some {a b n : ℕ} :
    checkedMul a b = some n ↔ a * b = n ∧ n < wordSize := by
  unfold checkedMul
  split_ifs with h
  · rw [Option.some.injEq]
    constructor
    · rintro rfl
      exact ⟨rfl, h⟩
    · exact And.left
  · simp only [false_iff, not_and]
    rintro rfl
    exact h

/-- A range that ends in an object. -/
theorem checkedAdd_le_iff {a b m : ℕ} (hm : m ≤ isizeMax) :
    (∃ e ∈ checkedAdd a b, e ≤ m) ↔ a + b ≤ m := by
  have hword : wordSize = 2 ^ 64 := rfl
  have hmax := isizeMax_eq
  constructor
  · rintro ⟨e, he, hle⟩
    obtain ⟨rfl, -⟩ := checkedAdd_eq_some.1 he
    exact hle
  · exact fun hle => ⟨a + b, checkedAdd_eq_some.2 ⟨rfl, by omega⟩, hle⟩

/-- An option that must not be empty. -/
def okOr (e : ε) : Option α → Outcome ε α
  | some a => ok a
  | none => err e

@[simp] theorem okOr_eq_ok {e : ε} {o : Option α} {a : α} : okOr e o = ok a ↔ o = some a := by
  cases o <;> simp [okOr]

theorem Safe.okOr {e : ε} {o : Option α} {P : α → Prop} (h : ∀ a ∈ o, P a) :
    (Outcome.okOr e o).Safe P := by
  cases o with
  | none => trivial
  | some a => exact h a rfl

theorem Errs.okOr {e : ε} {o : Option α} {Q : ε → Prop} (h : Q e) : (Outcome.okOr e o).Errs Q := by
  cases o with
  | none => exact of_err h
  | some a => exact of_eq_ok rfl

/-! ## Indices, slices and vectors -/

/-- The element at an index. -/
def get (l : List α) (i : ℕ) : Outcome ε α :=
  match l[i]? with
  | some a => ok a
  | none => panic

theorem get_eq_ok {l : List α} {i : ℕ} {a : α} : (get l i : Outcome ε α) = ok a ↔ l[i]? = some a := by
  unfold get
  cases l[i]? <;> simp

theorem get_eq {l : List α} {i : ℕ} (h : i < l.length) : (get l i : Outcome ε α) = ok l[i] :=
  get_eq_ok.2 (List.getElem?_eq_getElem h)

/-- The elements from `i` up to `j`. -/
def slice (l : List α) (i j : ℕ) : Outcome ε (List α) :=
  if i ≤ j ∧ j ≤ l.length then ok ((l.take j).drop i) else panic

theorem slice_eq {l : List α} {i j : ℕ} (hij : i ≤ j) (hj : j ≤ l.length) :
    (slice l i j : Outcome ε (List α)) = ok ((l.take j).drop i) := if_pos ⟨hij, hj⟩

/-- A new vector with room for `n` elements of `size` bytes. -/
def withCapacity (size n : ℕ) : Outcome ε (List α) := if size * n ≤ isizeMax then ok [] else panic

theorem withCapacity_eq {size n : ℕ} (h : size * n ≤ isizeMax) :
    (withCapacity size n : Outcome ε (List α)) = ok [] := if_pos h

/-- A vector of bytes that grows. -/
def extend (l new : List α) : Outcome ε (List α) :=
  if l.length + new.length ≤ isizeMax then ok (l ++ new) else panic

theorem extend_eq {l new : List α} (h : l.length + new.length ≤ isizeMax) :
    (extend l new : Outcome ε (List α)) = ok (l ++ new) := if_pos h

theorem extend_eq_ok {l new l' : List α} :
    (extend l new : Outcome ε (List α)) = ok l' ↔
      l.length + new.length ≤ isizeMax ∧ l' = l ++ new := ite_eq_ok fun _ => nofun

theorem Safe.slice {l : List α} {i j : ℕ} {P : List α → Prop} (hij : i ≤ j) (hj : j ≤ l.length)
    (hP : ∀ b, b.length = j - i → P b) : (Outcome.slice l i j : Outcome ε (List α)).Safe P := by
  rw [slice_eq hij hj]
  refine hP _ ?_
  rw [List.length_drop, List.length_take]
  omega

theorem Safe.extend {l new : List α} {P : List α → Prop} (h : l.length + new.length ≤ isizeMax)
    (hP : P (l ++ new)) : (Outcome.extend l new : Outcome ε (List α)).Safe P := by
  rw [extend_eq h]
  exact hP

theorem Errs.extend {l new : List α} {Q : ε → Prop} : (Outcome.extend l new).Errs Q := by
  unfold Outcome.extend
  split_ifs
  · exact of_eq_ok rfl
  · exact of_panic rfl

/-- A vector that grows to `n` elements, or is cut. -/
def resize (l : List α) (n : ℕ) (a : α) : Outcome ε (List α) :=
  if n ≤ l.length then ok (l.take n) else extend l (List.replicate (n - l.length) a)

theorem Errs.resize {l : List α} {n : ℕ} {a : α} {Q : ε → Prop} :
    (Outcome.resize l n a).Errs Q := by
  unfold Outcome.resize
  split_ifs
  · exact of_eq_ok rfl
  · exact extend

theorem resize_add (l : List α) (n : ℕ) (a : α) :
    (resize l (l.length + n) a : Outcome ε (List α)) =
      if n = 0 then ok l else extend l (List.replicate n a) := by
  unfold resize
  rw [Nat.add_sub_cancel_left]
  by_cases hn : n = 0
  · subst hn
    rw [Nat.add_zero, if_pos (le_refl _), if_pos rfl, List.take_length]
  · rw [if_neg (by omega), if_neg hn]

theorem resize_add_eq_ok {l l' : List α} (hl : l.length ≤ isizeMax) {n : ℕ} {a : α} :
    (resize l (l.length + n) a : Outcome ε (List α)) = ok l' ↔
      l' = l ++ List.replicate n a ∧ l'.length ≤ isizeMax := by
  rw [resize_add]
  split_ifs with hn
  · subst hn
    simp only [ok.injEq, List.replicate_zero, List.append_nil]
    constructor
    · rintro rfl
      exact ⟨rfl, hl⟩
    · rintro ⟨rfl, -⟩
      rfl
  · rw [extend_eq_ok]
    constructor
    · rintro ⟨hle, rfl⟩
      exact ⟨rfl, by rwa [List.length_append]⟩
    · rintro ⟨rfl, hle⟩
      exact ⟨by rwa [List.length_append] at hle, rfl⟩

/-- What is appended at last, with a value that stays as it is. -/
theorem extended_eq_ok {β : Type} {x : Outcome ε (List α)} {l block l' : List α} {b b' : β}
    (hx : ∀ {l'}, x = ok l' ↔ l.length + block.length ≤ isizeMax ∧ l' = l ++ block) :
    (x >>= fun l' => ok (l', b)) = ok (l', b') ↔
      b' = b ∧ l' = l ++ block ∧ l'.length ≤ isizeMax := by
  simp only [bind_eq_ok, hx, ok.injEq, Prod.mk.injEq]
  constructor
  · rintro ⟨_, ⟨hle, rfl⟩, rfl, rfl⟩
    exact ⟨rfl, rfl, by rwa [List.length_append]⟩
  · rintro ⟨rfl, rfl, hle⟩
    exact ⟨_, ⟨by rwa [List.length_append] at hle, rfl⟩, rfl, rfl⟩

/-- The same vector appended again and again. -/
theorem iterate_extend_eq_ok {f : List α → Outcome ε (List α)} {block : List α}
    (hf : ∀ {l l'}, f l = ok l' ↔ l.length + block.length ≤ isizeMax ∧ l' = l ++ block)
    {l l' : List α} (hl : l.length ≤ isizeMax) {n : ℕ} :
    iterate f n l = ok l' ↔
      l' = l ++ (List.replicate n block).flatten ∧ l'.length ≤ isizeMax := by
  induction n generalizing l with
  | zero =>
    simp only [iterate, ok.injEq, List.replicate_zero, List.flatten_nil, List.append_nil]
    constructor
    · rintro rfl
      exact ⟨rfl, hl⟩
    · rintro ⟨rfl, -⟩
      rfl
  | succ n ih =>
    simp only [iterate, bind_eq_ok, hf, List.replicate_succ, List.flatten_cons]
    constructor
    · rintro ⟨a, ⟨hle, rfl⟩, hrest⟩
      rw [ih (by rwa [List.length_append]), List.append_assoc] at hrest
      exact hrest
    · rintro ⟨rfl, hle⟩
      have hle' : l.length + block.length ≤ isizeMax := by
        simp only [List.length_append] at hle
        omega
      refine ⟨_, ⟨hle', rfl⟩, ?_⟩
      rw [ih (by rwa [List.length_append]), List.append_assoc]
      exact ⟨rfl, hle⟩

/-! ## Arrays of a fixed length -/

/-- Change the element at an index. -/
def modify {n : ℕ} (v : Vector α n) (i : ℕ) (f : α → Outcome ε α) : Outcome ε (Vector α n) :=
  if h : i < n then f v[i] >>= fun a => ok (v.set i a) else panic

/-- Store `f i`, `f (i + 1)` and so on, `k` of them, each at its own index. -/
def fill {n : ℕ} (f : ℕ → Outcome ε α) : ℕ → ℕ → Vector α n → Outcome ε (Vector α n)
  | _, 0, v => ok v
  | i, k + 1, v => f i >>= fun a => modify v i (fun _ => ok a) >>= fill f (i + 1) k

theorem modify_eq {n : ℕ} {v : Vector α n} {i : ℕ} (h : i < n) {f : α → Outcome ε α} {a : α}
    (hf : f v[i] = ok a) : modify v i f = ok (v.set i a) := by
  rw [modify, dif_pos h, hf, ok_bind]

theorem modify_ok {n : ℕ} {v : Vector α n} {i : ℕ} (h : i < n) (f : α → α) :
    modify v i (fun a => ok (f a)) = (ok (v.set i (f v[i])) : Outcome ε _) := modify_eq h rfl

/-- The elements up to one that has been stored behind the others. -/
theorem take_toList_set {n : ℕ} (v : Vector α n) {i : ℕ} (h : i < n) (a : α) :
    (v.set i a).toList.take (i + 1) = v.toList.take i ++ [a] := by
  have hlen : i < (v.toList.set i a).length := by rwa [List.length_set, Vector.length_toList]
  rw [Vector.toList_set, List.take_succ_eq_append_getElem hlen, List.getElem_set_self,
    List.take_set_of_le (le_refl i)]

/-- **The rule for `fill`**: what it stores follows what was there. -/
theorem fill_eq {n : ℕ} {f : ℕ → Outcome ε α} {g : ℕ → α} {i k : ℕ} (hle : i + k ≤ n)
    (hf : ∀ j < i + k, f j = ok (g j)) (v : Vector α n) :
    ∃ v', fill f i k v = ok v' ∧
      v'.toList.take (i + k) = v.toList.take i ++ (List.range' i k).map g := by
  induction k generalizing i v with
  | zero => exact ⟨v, rfl, (List.append_nil _).symm⟩
  | succ k ih =>
    obtain ⟨v', hfill, htake⟩ := ih (i := i + 1) (by omega) (fun j hj => hf j (by omega))
      (v.set i (g i))
    refine ⟨v', ?_, ?_⟩
    · rw [fill, hf i (by omega), ok_bind, modify_ok (by omega), ok_bind, hfill]
    · rw [show i + (k + 1) = i + 1 + k by omega, htake, take_toList_set, List.append_assoc,
        List.range'_succ, List.map_cons]
      rfl

/-- The bytes of an object in memory. -/
structure Slice where
  bytes : List UInt8
  length_le : bytes.length ≤ isizeMax

end Outcome

end Usbmidi9
