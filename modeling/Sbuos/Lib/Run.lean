import Mathlib.Algebra.GroupWithZero.Nat
/-!
# Runs of a labelled step relation, and loops with fuel

`Run step s is t`: from `s` the labels `is`, in order, lead to `t`. `Guarded ok step` keeps the steps
taken at a state and label that meet `ok`; a run of it is a run all of whose steps meet `ok`.

Two rules carry every property of whole runs: `Run.invariant` for a predicate of the state, and
`Run.history` for a predicate of the labels seen so far and the state they lead to.

A loop without a bound of its own takes fuel. `Returns f r`: with enough fuel `f` gives `r`, and more
fuel changes nothing; a loop that never ends returns nothing.
-/
namespace Lib

variable {σ ι : Type}

inductive Run (step : σ → ι → σ → Prop) (s : σ) : List ι → σ → Prop
  | nil : Run step s [] s
  | snoc {is t i u} : Run step s is t → step t i u → Run step s (is ++ [i]) u

def Guarded (ok : σ → ι → Prop) (step : σ → ι → σ → Prop) (s : σ) (i : ι) (t : σ) : Prop :=
  ok s i ∧ step s i t

/-- The steps of `step`, each labelled with the state it starts in as well. -/
def Traced (step : σ → ι → σ → Prop) (s : σ) (i : σ × ι) (t : σ) : Prop := i.1 = s ∧ step s i.2 t

variable {step : σ → ι → σ → Prop} {s t u : σ} {is js : List ι}

/-- What holds at the start and is kept by every step holds after every run. -/
theorem Run.invariant (I : σ → Prop) (h0 : I s) (hstep : ∀ t i u, I t → step t i u → I u)
    (h : Run step s is t) : I t := by
  induction h with
  | nil => exact h0
  | snoc _ hs ih => exact hstep _ _ _ ih hs

/-- The same for a relation between the labels so far and the state. -/
theorem Run.history (I : List ι → σ → Prop) (h0 : I [] s)
    (hstep : ∀ is t i u, I is t → step t i u → I (is ++ [i]) u) (h : Run step s is t) : I is t := by
  induction h with
  | nil => exact h0
  | snoc _ hs ih => exact hstep _ _ _ _ ih hs

/-- A run of one relation is a run of any that allows its steps. -/
theorem Run.mono {step' : σ → ι → σ → Prop} (hstep : ∀ t i u, step t i u → step' t i u) (h : Run step s is t) :
    Run step' s is t := by
  induction h with
  | nil => exact .nil
  | snoc _ hs ih => exact ih.snoc (hstep _ _ _ hs)

/-- A run whose labels are fit in every state. -/
theorem Run.guard {ok : σ → ι → Prop} (hok : ∀ i ∈ is, ∀ s, ok s i) (h : Run step s is t) :
    Run (Guarded ok step) s is t := by
  induction h with
  | nil => exact .nil
  | snoc _ hs ih =>
    refine (ih fun i hi => hok i (List.mem_append_left _ hi)).snoc ⟨?_, hs⟩
    exact hok _ (List.mem_append_right _ List.mem_cons_self) _

theorem Run.single {i : ι} (h : step s i t) : Run step s [i] t := by
  have h0 : Run step s [] s := .nil
  exact h0.snoc h

theorem Run.append (h : Run step s is t) (h' : Run step t js u) : Run step s (is ++ js) u := by
  induction h' with
  | nil => simpa using h
  | snoc _ hs ih => rw [← List.append_assoc]; exact ih.snoc hs

theorem Run.cons {i : ι} (h : step s i t) (h' : Run step t is u) : Run step s (i :: is) u := by
  simpa using (Run.single h).append h'

/-- As long as `P` has not happened, every step pays its weight from what `Φ` was at the start. -/
theorem Run.pays_or {I P : σ → Prop} (Φ : σ → Nat) (w : ι → Nat) (h0 : I s)
    (hstep : ∀ t i u, I t → step t i u → P u ∨ I u ∧ Φ u + w i ≤ Φ t) (h : Run step s is t) :
    (∃ is₁ is₂ u, is = is₁ ++ is₂ ∧ Run step s is₁ u ∧ Run step u is₂ t ∧ P u) ∨
      I t ∧ Φ t + (is.map w).sum ≤ Φ s := by
  induction h with
  | nil => exact .inr ⟨h0, Nat.le_refl _⟩
  | @snoc is t i u hrun hs ih =>
    obtain ⟨is₁, is₂, v, rfl, h₁, h₂, hv⟩ | ⟨ht, hpaid⟩ := ih
    · exact .inl ⟨is₁, is₂ ++ [i], v, List.append_assoc .., h₁, h₂.snoc hs, hv⟩
    · obtain hu | ⟨hu, hpay⟩ := hstep t i u ht hs
      · exact .inl ⟨is ++ [i], [], u, (List.append_nil _).symm, hrun.snoc hs, .nil, hu⟩
      · refine .inr ⟨hu, ?_⟩
        rw [List.map_append, List.sum_append, List.map_singleton, List.sum_singleton]
        omega

/-- Executing the labels one after the other. -/
def runAll (exec : ι → σ → Option σ) : List ι → σ → Option σ
  | [], s => some s
  | i :: is, s => (exec i s).bind (runAll exec is)

/-- An execution is a run of the relation it implements. -/
theorem Run.of_runAll {exec : ι → σ → Option σ} (hexec : ∀ s i t, exec i s = some t → step s i t)
    (h : runAll exec is s = some t) : Run step s is t := by
  induction is generalizing s with
  | nil => cases h; exact .nil
  | cons i is ih =>
    obtain ⟨u, hu, ht⟩ := Option.bind_eq_some_iff.1 h
    exact .cons (hexec s i u hu) (ih ht)

/-- One that stops where a label is not fit. -/
theorem Run.of_runAll_guarded {ok : σ → ι → Prop} [∀ s i, Decidable (ok s i)] {exec : ι → σ → Option σ}
    (hexec : ∀ s i t, exec i s = some t → step s i t)
    (h : runAll (fun i s => if ok s i then exec i s else none) is s = some t) : Run (Guarded ok step) s is t := by
  refine .of_runAll (fun s i t hs => ?_) h
  split at hs
  case isTrue hok => exact ⟨hok, hexec s i t hs⟩
  case isFalse => cases hs

/-! ## Loops with fuel -/

section fuel
variable {α : Type}

def Returns (f : Nat → Option α) (r : α) : Prop := ∃ n, ∀ fuel, n ≤ fuel → f fuel = some r

namespace Returns
variable {f : Nat → Option α} {r : α}

theorem of_le (n : Nat) (h : ∀ fuel, n ≤ fuel → f fuel = some r) : Returns f r := ⟨n, h⟩

/-- There is one result. -/
theorem unique {r' : α} (h : Returns f r) (h' : Returns f r') : r = r' := by
  obtain ⟨n, hn⟩ := h
  obtain ⟨m, hm⟩ := h'
  exact Option.some.inj ((hn _ (Nat.le_max_left n m)).symm.trans (hm _ (Nat.le_max_right n m)))

end Returns
end fuel

end Lib
