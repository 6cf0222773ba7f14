import Mathlib

/-!
# The first of the best

`FirstBest score xs x`: nothing in `xs` has a higher score than `x`, and nothing before it has the same. A scan for
one score after the other, from the top, comes to it: `FirstBest.find?_eq_none`, `FirstBest.find?`.
-/

variable {α : Type*} {score : α → Int} {xs : List α} {x y : α}

def FirstBest (score : α → Int) (xs : List α) (x : α) : Prop :=
  ∃ before after, xs = before ++ x :: after ∧ (∀ y ∈ before, score y < score x) ∧ ∀ y ∈ after, score y ≤ score x

namespace FirstBest

theorem le (h : FirstBest score xs x) (hy : y ∈ xs) : score y ≤ score x := by
  obtain ⟨before, after, rfl, hbefore, hafter⟩ := h
  rcases List.mem_append.1 hy with hy | hy
  · exact (hbefore y hy).le
  · rcases List.mem_cons.1 hy with rfl | hy
    · exact le_rfl
    · exact hafter y hy

theorem exists_of_ne_nil (hne : xs ≠ []) : ∃ x, FirstBest score xs x := by
  induction xs with
  | nil => exact absurd rfl hne
  | cons y xs ih =>
    by_cases hnil : xs = []
    · subst hnil
      exact ⟨y, [], [], rfl, nofun, nofun⟩
    · obtain ⟨x, hx⟩ := ih hnil
      rcases le_or_gt (score x) (score y) with hle | hlt
      · exact ⟨y, [], xs, rfl, nofun, fun z hz => (hx.le hz).trans hle⟩
      · obtain ⟨before, after, rfl, hbefore, hafter⟩ := hx
        refine ⟨x, y :: before, after, rfl, fun z hz => ?_, hafter⟩
        rcases List.mem_cons.1 hz with rfl | hz
        · exact hlt
        · exact hbefore z hz

/-- A scan for a score above the best finds nothing. -/
theorem find?_eq_none (h : FirstBest score xs x) {n : Int} (hn : score x < n) : xs.find? (score · = n) = none := by
  rw [List.find?_eq_none]
  intro y hy heq
  have hle := h.le hy
  rw [decide_eq_true_eq] at heq
  omega

/-- A scan for the best score finds the first that has it. -/
theorem find? (h : FirstBest score xs x) : xs.find? (score · = score x) = some x := by
  obtain ⟨before, after, rfl, hbefore, -⟩ := h
  rw [List.find?_eq_some_iff_append]
  refine ⟨by simp, before, after, rfl, fun y hy => ?_⟩
  simpa using (hbefore y hy).ne

end FirstBest
