/-
  Leases of a numbered resource in a trace.

  An entry may acquire or release one.  `Leased lease l held` are the traces in which
  an acquisition comes only while nothing is held and a release is of what is held;
  `held` is what is held at the end.  `Leased.append` is its rule for entries that do
  neither.  Whatever the numbers, acquisitions and releases balance (`Leased.balance`,
  `Leased.balance_of`), and nothing is released that is not held
  (`Leased.held_of_release`).
-/
import Mathlib

namespace Usbmidi9

/-- What an entry does to a numbered resource. -/
inductive Lease (κ : Type*) where
  | acquire (k : κ)
  | release (k : κ)
deriving DecidableEq, Repr

def Lease.isAcquire {κ : Type*} : Lease κ → Bool
  | .acquire _ => true
  | .release _ => false

section
variable {ε κ : Type*} (lease : ε → Option (Lease κ))

/-- How many times the resource is acquired. -/
def acquired (l : List ε) : ℕ := l.countP fun e => (lease e).any Lease.isAcquire

/-- How many times it is released. -/
def released (l : List ε) : ℕ := l.countP fun e => (lease e).any fun x => !x.isAcquire

/-- How many times number `k` is acquired, and released. -/
def acquiredOf [DecidableEq κ] (k : κ) (l : List ε) : ℕ :=
  l.countP fun e => lease e = some (.acquire k)

def releasedOf [DecidableEq κ] (k : κ) (l : List ε) : ℕ :=
  l.countP fun e => lease e = some (.release k)

/-- One lease at a time, each ended at most once. -/
inductive Leased : List ε → Option κ → Prop
  | nil : Leased [] none
  | other {l held e} : Leased l held → lease e = none → Leased (l ++ [e]) held
  | acquire {l k e} : Leased l none → lease e = some (.acquire k) → Leased (l ++ [e]) (some k)
  | release {l k e} : Leased l (some k) → lease e = some (.release k) → Leased (l ++ [e]) none

end

namespace Leased
variable {ε κ : Type*} {lease : ε → Option (Lease κ)} {l : List ε} {held : Option κ}

/-- Entries that neither acquire nor release. -/
theorem append (h : Leased lease l held) {es : List ε} (hes : ∀ e ∈ es, lease e = none) :
    Leased lease (l ++ es) held := by
  induction es using List.reverseRecOn with
  | nil => simpa using h
  | append_singleton es e ih =>
    rw [← List.append_assoc]
    exact (ih fun x hx => hes x (List.mem_append_left _ hx)).other (hes e (by simp))

/-- **Acquisitions and releases balance** but for what is held. -/
theorem balance (h : Leased lease l held) :
    acquired lease l = released lease l + if held = none then 0 else 1 := by
  induction h with
  | nil => rfl
  | other _ he ih =>
    simp only [acquired, released, List.countP_append, List.countP_singleton, he] at ih ⊢
    simpa using ih
  | acquire _ he ih =>
    simp only [acquired, released, List.countP_append, List.countP_singleton, he] at ih ⊢
    simpa [Lease.isAcquire] using ih
  | release _ he ih =>
    simp only [acquired, released, List.countP_append, List.countP_singleton, he] at ih ⊢
    simpa [Lease.isAcquire] using ih

/-- The same for one number. -/
theorem balance_of [DecidableEq κ] (h : Leased lease l held) (k : κ) :
    acquiredOf lease k l = releasedOf lease k l + if held = some k then 1 else 0 := by
  induction h with
  | nil => rfl
  | other _ he ih =>
    simp only [acquiredOf, releasedOf, List.countP_append, List.countP_singleton, he] at ih ⊢
    simpa using ih
  | acquire _ he ih =>
    simp only [acquiredOf, releasedOf, List.countP_append, List.countP_singleton, he] at ih ⊢
    simpa using ih
  | release _ he ih =>
    simp only [acquiredOf, releasedOf, List.countP_append, List.countP_singleton, he] at ih ⊢
    simpa using ih

/-- The last entry, and what is held before it. -/
theorem concat_cases {e : ε} (h : Leased lease (l ++ [e]) held) :
    (lease e = none ∧ Leased lease l held) ∨
      (∃ k, lease e = some (.acquire k) ∧ held = some k ∧ Leased lease l none) ∨
      ∃ k, lease e = some (.release k) ∧ held = none ∧ Leased lease l (some k) := by
  generalize hl : l ++ [e] = l' at h
  cases h with
  | nil => simp at hl
  | other h he =>
    obtain ⟨rfl, hlast⟩ := List.append_inj' hl rfl
    obtain rfl := List.singleton_inj.1 hlast
    exact .inl ⟨he, h⟩
  | acquire h he =>
    obtain ⟨rfl, hlast⟩ := List.append_inj' hl rfl
    obtain rfl := List.singleton_inj.1 hlast
    exact .inr (.inl ⟨_, he, rfl, h⟩)
  | release h he =>
    obtain ⟨rfl, hlast⟩ := List.append_inj' hl rfl
    obtain rfl := List.singleton_inj.1 hlast
    exact .inr (.inr ⟨_, he, rfl, h⟩)

/-- A trace that goes on was one before. -/
theorem left {es : List ε} (h : Leased lease (l ++ es) held) : ∃ held', Leased lease l held' := by
  induction es using List.reverseRecOn generalizing held with
  | nil => exact ⟨held, by simpa using h⟩
  | append_singleton es e ih =>
    rw [← List.append_assoc] at h
    rcases h.concat_cases with ⟨-, h⟩ | ⟨k, -, -, h⟩ | ⟨k, -, -, h⟩
    · exact ih h
    · exact ih h
    · exact ih h

/-- **What is released is held.** -/
theorem held_of_release {e : ε} {es : List ε} {k : κ} (h : Leased lease (l ++ e :: es) held)
    (he : lease e = some (.release k)) : Leased lease l (some k) := by
  have hsplit : l ++ e :: es = (l ++ [e]) ++ es := by simp
  rw [hsplit] at h
  obtain ⟨held', h⟩ := h.left
  rcases h.concat_cases with ⟨hnone, -⟩ | ⟨k', hacq, -⟩ | ⟨k', hrel, -, h⟩
  · rw [hnone] at he
    cases he
  · rw [hacq] at he
    cases he
  · obtain rfl := Lease.release.inj (Option.some.inj (hrel.symm.trans he))
    exact h

end Leased

end Usbmidi9
