import Mathlib

/-!
# Linked lists in a heap

`Seg heap p cs q`: from the pointer `p` on the cells `cs` follow one another, and the last one points at `q`. A list
is a segment that ends at null.
-/

namespace LinkedList

variable {α : Type*}

structure Cell (α : Type*) where
  next : Option Nat
  val : α

/-- `none` is memory that is not allocated. -/
abbrev Heap (α : Type*) := Nat → Option (Cell α)

/-- The cells are given with their addresses. -/
def Seg (heap : Heap α) : Option Nat → List (Nat × α) → Option Nat → Prop
  | p, [], q => p = q
  | p, (n, x) :: cs, q => p = some n ∧ ∃ next, heap n = some ⟨next, x⟩ ∧ Seg heap next cs q

variable {heap heap' : Heap α} {p q : Option Nat} {cs ds : List (Nat × α)}

theorem seg_append : Seg heap p (cs ++ ds) q ↔ ∃ r, Seg heap p cs r ∧ Seg heap r ds q := by
  induction cs generalizing p with
  | nil => simp [Seg]
  | cons c cs ih =>
    obtain ⟨n, x⟩ := c
    simp only [List.cons_append, Seg, ih]
    constructor
    · rintro ⟨hp, next, hn, r, hcs, hds⟩
      exact ⟨r, ⟨hp, next, hn, hcs⟩, hds⟩
    · rintro ⟨r, ⟨hp, next, hn, hcs⟩, hds⟩
      exact ⟨hp, next, hn, r, hcs, hds⟩

/-- A segment does not depend on other cells. -/
theorem Seg.frame (h : Seg heap p cs q) (hsame : ∀ c ∈ cs, heap' c.1 = heap c.1) : Seg heap' p cs q := by
  induction cs generalizing p with
  | nil => exact h
  | cons c cs ih =>
    obtain ⟨n, x⟩ := c
    obtain ⟨hp, next, hn, hcs⟩ := h
    refine ⟨hp, next, (hsame (n, x) List.mem_cons_self).trans hn, ih hcs fun c hc => ?_⟩
    exact hsame c (List.mem_cons_of_mem _ hc)

theorem Seg.update (h : Seg heap p cs q) {n : Nat} (hn : n ∉ cs.map Prod.fst) (cell : Option (Cell α)) :
    Seg (Function.update heap n cell) p cs q := by
  refine h.frame fun c hc => ?_
  have hmem : c.1 ∈ cs.map Prod.fst := List.mem_map_of_mem hc
  exact Function.update_of_ne (ne_of_mem_of_not_mem hmem hn) _ _

theorem Seg.allocated (h : Seg heap p cs q) {c : Nat × α} (hc : c ∈ cs) : ∃ next, heap c.1 = some ⟨next, c.2⟩ := by
  induction cs generalizing p with
  | nil => cases hc
  | cons d cs ih =>
    obtain ⟨n, x⟩ := d
    obtain ⟨-, next, hn, hcs⟩ := h
    rcases List.mem_cons.1 hc with rfl | hc
    · exact ⟨next, hn⟩
    · exact ih hcs hc

theorem seg_singleton {n : Nat} {x : α} : Seg heap p [(n, x)] q ↔ p = some n ∧ heap n = some ⟨q, x⟩ := by
  constructor
  · rintro ⟨hp, next, hn, rfl⟩
    exact ⟨hp, hn⟩
  · rintro ⟨hp, hn⟩
    exact ⟨hp, q, hn, rfl⟩

/-- A list is empty if its pointer is null. -/
theorem Seg.eq_nil_iff (h : Seg heap p cs none) : cs = [] ↔ p = none := by
  cases cs with
  | nil => exact iff_of_true rfl h
  | cons c cs =>
    obtain ⟨n, x⟩ := c
    rw [h.1]
    exact iff_of_false (List.cons_ne_nil _ _) (Option.some_ne_none n)

/-- The last cell is made to point elsewhere. -/
theorem Seg.relink {n : Nat} {x : α} (h : Seg heap p (cs ++ [(n, x)]) q) (hn : n ∉ cs.map Prod.fst) (r : Option Nat) :
    Seg (Function.update heap n (some ⟨r, x⟩)) p (cs ++ [(n, x)]) r := by
  obtain ⟨s, hcs, hlast⟩ := seg_append.1 h
  refine seg_append.2 ⟨s, hcs.update hn _, seg_singleton.2 ?_⟩
  exact ⟨(seg_singleton.1 hlast).1, Function.update_self _ _ _⟩

end LinkedList
