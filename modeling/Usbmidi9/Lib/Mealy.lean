/-
  Mealy machines over lists of inputs: runs, simulation, inputs that leave the
  state alone, and machines that share one input stream.

  A step may emit any number of outputs.  `outs` keeps the outputs of each
  input apart and `out` concatenates them; `demux` runs one machine for each
  key on the inputs that carry the key.
-/
import Mathlib

namespace Usbmidi9

/-- A deterministic transducer; a step may emit any number of outputs. -/
structure Mealy (σ ι ο : Type*) where
  step : σ → ι → σ × List ο

namespace Mealy

variable {σ τ ι κ ο : Type*} (M : Mealy σ ι ο)

/-- The state after a list of inputs. -/
def final : σ → List ι → σ
  | s, [] => s
  | s, i :: is => final (M.step s i).1 is

/-- The outputs of each input. -/
def outs : σ → List ι → List (List ο)
  | _, [] => []
  | s, i :: is => (M.step s i).2 :: outs (M.step s i).1 is

/-- The outputs of a run, in order. -/
def out (s : σ) (is : List ι) : List ο := (M.outs s is).flatten

@[simp] theorem final_nil (s : σ) : M.final s [] = s := rfl

@[simp] theorem final_cons (s : σ) (i : ι) (is : List ι) :
    M.final s (i :: is) = M.final (M.step s i).1 is := rfl

@[simp] theorem outs_nil (s : σ) : M.outs s [] = [] := rfl

@[simp] theorem outs_cons (s : σ) (i : ι) (is : List ι) :
    M.outs s (i :: is) = (M.step s i).2 :: M.outs (M.step s i).1 is := rfl

@[simp] theorem out_nil (s : σ) : M.out s [] = [] := rfl

@[simp] theorem out_cons (s : σ) (i : ι) (is : List ι) :
    M.out s (i :: is) = (M.step s i).2 ++ M.out (M.step s i).1 is := by
  simp [out]

theorem final_append (s : σ) (is js : List ι) :
    M.final s (is ++ js) = M.final (M.final s is) js := by
  induction is generalizing s with
  | nil => rfl
  | cons i is ih => exact ih _

theorem outs_append (s : σ) (is js : List ι) :
    M.outs s (is ++ js) = M.outs s is ++ M.outs (M.final s is) js := by
  induction is generalizing s with
  | nil => rfl
  | cons i is ih => simp only [List.cons_append, outs_cons, final_cons, ih]

theorem out_append (s : σ) (is js : List ι) :
    M.out s (is ++ js) = M.out s is ++ M.out (M.final s is) js := by
  simp only [out, outs_append, List.flatten_append]

@[simp] theorem length_outs (s : σ) (is : List ι) : (M.outs s is).length = is.length := by
  induction is generalizing s with
  | nil => rfl
  | cons i is ih => simp [ih]

/-! ## Simulation -/

/-- **Simulation.**  If related states answer every admissible input alike and
    stay related, the runs emit the same outputs and end in related states. -/
theorem sim {M : Mealy σ ι ο} {N : Mealy τ ι ο} {R : σ → τ → Prop} {adm : ι → Prop}
    (hstep : ∀ s t i, adm i → R s t →
      (M.step s i).2 = (N.step t i).2 ∧ R (M.step s i).1 (N.step t i).1) :
    ∀ {is : List ι} {s : σ} {t : τ}, (∀ i ∈ is, adm i) → R s t →
      M.outs s is = N.outs t is ∧ R (M.final s is) (N.final t is)
  | [], _, _, _, h => ⟨rfl, h⟩
  | i :: is, s, t, hadm, h => by
    obtain ⟨ho, hr⟩ := hstep s t i (hadm i (by simp)) h
    obtain ⟨hos, hrs⟩ := sim hstep (List.forall_mem_cons.1 hadm).2 hr
    exact ⟨by simp only [outs_cons, ho, hos], hrs⟩

/-! ## Machines from machines -/

/-- The machine that ignores what is not admissible. -/
def only (M : Mealy σ ι ο) (adm : ι → Prop) [DecidablePred adm] : Mealy σ ι ο where
  step s i := if adm i then M.step s i else (s, [])

/-- The machine with its outputs renamed. -/
def mapOut {ο' : Type*} (M : Mealy σ ι ο) (f : ο → ο') : Mealy σ ι ο' where
  step s i := ((M.step s i).1, (M.step s i).2.map f)

theorem mapOut_run {ο' : Type*} (f : ο → ο') (s : σ) (is : List ι) :
    (M.mapOut f).outs s is = (M.outs s is).map (List.map f) ∧
      (M.mapOut f).final s is = M.final s is := by
  induction is generalizing s with
  | nil => exact ⟨rfl, rfl⟩
  | cons i is ih =>
    obtain ⟨houts, hfinal⟩ := ih (M.step s i).1
    exact ⟨congrArg ((M.step s i).2.map f :: ·) houts, hfinal⟩

/-- Every input meets a condition on the state in which it comes. -/
def Along (M : Mealy σ ι ο) (P : σ → ι → Prop) : σ → List ι → Prop
  | _, [] => True
  | s, i :: is => P s i ∧ Along M P (M.step s i).1 is

theorem along_append {M : Mealy σ ι ο} {P : σ → ι → Prop} {s : σ} {is js : List ι} :
    M.Along P s (is ++ js) ↔ M.Along P s is ∧ M.Along P (M.final s is) js := by
  induction is generalizing s with
  | nil => exact (and_iff_right trivial).symm
  | cons i is ih => rw [List.cons_append, Along, Along, ih, and_assoc, final_cons]

/-- **The invariant rule**, with the outputs so far. -/
theorem Along.inv {M : Mealy σ ι ο} {P : σ → ι → Prop} {I : List ο → σ → Prop}
    (hstep : ∀ os s i, I os s → P s i → I (os ++ (M.step s i).2) (M.step s i).1)
    {os : List ο} {s : σ} (hI : I os s) {is : List ι} (h : M.Along P s is) :
    I (os ++ M.out s is) (M.final s is) := by
  induction is generalizing os s with
  | nil => rwa [out_nil, List.append_nil]
  | cons i is ih =>
    rw [out_cons, final_cons, ← List.append_assoc]
    exact ih (hstep os s i hI h.1) h.2

/-- **The invariant rule** for any inputs, with the inputs and outputs so far. -/
theorem inv {I : List ι → List ο → σ → Prop}
    (hstep : ∀ is os s i, I is os s → I (is ++ [i]) (os ++ (M.step s i).2) (M.step s i).1)
    (js : List ι) (os : List ο) {s : σ} (hI : I js os s) (is : List ι) :
    I (js ++ is) (os ++ M.out s is) (M.final s is) := by
  induction is generalizing js os s with
  | nil => rwa [out_nil, List.append_nil, List.append_nil]
  | cons i is ih =>
    rw [out_cons, final_cons, ← List.append_assoc, List.append_cons]
    exact ih _ _ (hstep js os s i hI)

/-! ## Inserted inputs

An interleaving is a list over `ι ⊕ κ`: the machine's own inputs on the left,
the inserted ones on the right, `g` giving the input each of these stands for. -/

/-- The inputs of an interleaving, in order. -/
def merged (g : κ → ι) : List (ι ⊕ κ) → List ι
  | [] => []
  | .inl i :: l => i :: merged g l
  | .inr k :: l => g k :: merged g l

/-- The own inputs of an interleaving. -/
def lefts : List (ι ⊕ κ) → List ι
  | [] => []
  | .inl i :: l => i :: lefts l
  | .inr _ :: l => lefts l

/-- The inserted inputs of an interleaving. -/
def rights : List (ι ⊕ κ) → List κ
  | [] => []
  | .inl _ :: l => rights l
  | .inr k :: l => k :: rights l

/-- The entries of `os` at the positions of own inputs. -/
def atLefts : List (ι ⊕ κ) → List ο → List ο
  | .inl _ :: l, o :: os => o :: atLefts l os
  | .inr _ :: l, _ :: os => atLefts l os
  | _, _ => []

/-- The entries of `os` at the positions of inserted inputs, with these. -/
def atRights : List (ι ⊕ κ) → List ο → List (κ × ο)
  | .inl _ :: l, _ :: os => atRights l os
  | .inr k :: l, o :: os => (k, o) :: atRights l os
  | _, _ => []

theorem mem_merged {g : κ → ι} {l : List (ι ⊕ κ)} {i : ι} (h : i ∈ merged g l) :
    i ∈ lefts l ∨ ∃ k ∈ rights l, g k = i := by
  induction l with
  | nil => exact absurd h List.not_mem_nil
  | cons x l ih =>
    rcases x with j | k <;> simp only [merged, List.mem_cons] at h
    · rcases h with rfl | h
      · exact .inl (by simp [lefts])
      · exact (ih h).imp_left fun h => by simp [lefts, h]
    · rcases h with rfl | h
      · exact .inr ⟨k, by simp [rights], rfl⟩
      · exact (ih h).imp_right fun ⟨k', hk', he⟩ => ⟨k', by simp [rights, hk'], he⟩

/-- **Insertion.**  Inputs that leave every state alone can be inserted
    anywhere: the others keep their outputs, each inserted one has its own, and
    the run ends where it would have without them. -/
theorem outs_merged {M : Mealy σ ι ο} {g : κ → ι} {f : κ → List ο} :
    ∀ {l : List (ι ⊕ κ)} (_ : ∀ k ∈ rights l, ∀ s, M.step s (g k) = (s, f k)) (s : σ),
      atLefts l (M.outs s (merged g l)) = M.outs s (lefts l) ∧
        atRights l (M.outs s (merged g l)) = (rights l).map (fun k => (k, f k)) ∧
          M.final s (merged g l) = M.final s (lefts l)
  | [], _, _ => ⟨rfl, rfl, rfl⟩
  | .inl i :: l, h, s => by
    obtain ⟨h1, h2, h3⟩ := outs_merged (l := l) (g := g) h (M.step s i).1
    exact ⟨congrArg _ h1, h2, h3⟩
  | .inr k :: l, h, s => by
    have hk : M.step s (g k) = (s, f k) := h k (by simp [rights]) s
    obtain ⟨h1, h2, h3⟩ := outs_merged (l := l) (g := g) (fun j hj => h j (by simp [rights, hj])) s
    simp only [merged, lefts, rights, outs_cons, final_cons, hk, atLefts, atRights, List.map_cons]
    exact ⟨h1, congrArg _ h2, h3⟩

/-- **Refinement under insertion.**  If a machine answers its own inputs as another one
    answers what they stand for, and the inserted ones keep the relation, then its own
    inputs have the outputs of the other one, and the runs end in related states. -/
theorem run_merged {ι' : Type*} {M : Mealy σ ι ο} {N : Mealy τ ι' ο} {f : ι → ι'} {g : κ → ι}
    {R : σ → τ → Prop} {adm : ι → Prop} {ins : κ → Prop} {Q : κ → List ο → Prop}
    (hown : ∀ s t i, adm i → R s t →
      (M.step s i).2 = (N.step t (f i)).2 ∧ R (M.step s i).1 (N.step t (f i)).1)
    (hins : ∀ s t k, ins k → R s t → R (M.step s (g k)).1 t ∧ Q k (M.step s (g k)).2) :
    ∀ {l : List (ι ⊕ κ)} {s : σ} {t : τ}, (∀ i ∈ lefts l, adm i) → (∀ k ∈ rights l, ins k) →
      R s t →
      atLefts l (M.outs s (merged g l)) = N.outs t ((lefts l).map f) ∧
        (∀ x ∈ atRights l (M.outs s (merged g l)), Q x.1 x.2) ∧
          R (M.final s (merged g l)) (N.final t ((lefts l).map f))
  | [], s, t, _, _, hR => ⟨rfl, by simp [atRights], hR⟩
  | .inl i :: l, s, t, hadm, hl, hR => by
    obtain ⟨hi, hadm⟩ := List.forall_mem_cons.1 hadm
    obtain ⟨hout, hR₁⟩ := hown s t i hi hR
    obtain ⟨h1, h2, h3⟩ := run_merged hown hins hadm hl hR₁
    refine ⟨?_, h2, h3⟩
    rw [merged, outs_cons, atLefts, h1, hout]
    rfl
  | .inr k :: l, s, t, hadm, hl, hR => by
    obtain ⟨hk, hl⟩ := List.forall_mem_cons.1 hl
    obtain ⟨hR₁, hQ⟩ := hins s t k hk hR
    obtain ⟨h1, h2, h3⟩ := run_merged hown hins (l := l) hadm hl hR₁
    exact ⟨h1, List.forall_mem_cons.2 ⟨hQ, h2⟩, h3⟩

/-! ## Machines sharing an input stream -/

/-- One machine for each key, on the inputs that carry the key; an output is
    tagged with its key. -/
def demux [DecidableEq κ] (key : ι → κ) (M : κ → Mealy σ ι ο) : Mealy (κ → σ) ι (κ × ο) where
  step f i :=
    (Function.update f (key i) ((M (key i)).step (f (key i)) i).1,
      ((M (key i)).step (f (key i)) i).2.map (Prod.mk (key i)))

variable [DecidableEq κ] {key : ι → κ} {P : κ → Mealy σ ι ο}

/-- **Isolation.**  What a shared stream yields for one key is what the key's
    machine yields on the inputs that carry the key. -/
theorem demux_out (k : κ) (f : κ → σ) (is : List ι) :
    (((demux key P).out f is).filter fun o => o.1 = k).map Prod.snd =
        (P k).out (f k) (is.filter fun i => key i = k) ∧
      (demux key P).final f is k = (P k).final (f k) (is.filter fun i => key i = k) := by
  induction is generalizing f with
  | nil => exact ⟨rfl, rfl⟩
  | cons i is ih =>
    obtain ⟨ho, hf⟩ := ih ((demux key P).step f i).1
    simp only [out_cons, final_cons, List.filter_append, List.map_append, ho, hf]
    by_cases hk : key i = k
    · subst hk
      have hall : (((P (key i)).step (f (key i)) i).2.map (Prod.mk (key i))).filter
          (fun o : κ × ο => o.1 = key i) =
            ((P (key i)).step (f (key i)) i).2.map (Prod.mk (key i)) := by
        simp
      simp [demux, hall, Function.comp_def]
    · have hne : ∀ l : List ο, (l.map (Prod.mk (key i))).filter (fun o : κ × ο => o.1 = k) = [] := by
        simp [hk]
      simp [demux, hk, hne, Function.update_of_ne (Ne.symm hk)]

end Mealy

end Usbmidi9
