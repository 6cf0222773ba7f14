import Mathlib

/-!
# A priority queue, served while it is filled

`Step rank` adds an element that ranks behind the one served last, or serves the first of those that
wait. Ranks are distinct. `Good` says what holds of every run: the elements are served in the order of
their ranks, those that wait come behind them, and each element added was served once or waits.
With `rank x = (key x, number of x)` this is a stable queue: equal keys are served in order of arrival.
-/

namespace PriorityQueue

variable {α ρ : Type*} [LinearOrder ρ] (rank : α → ρ)

structure St (α : Type*) where
  /-- The elements added so far, in order. -/
  added : List α
  waiting : Multiset α
  /-- The elements served so far, in order. -/
  served : List α

def St.init : St α := ⟨[], 0, []⟩

def St.add (q : St α) (x : α) : St α := { q with added := q.added ++ [x], waiting := x ::ₘ q.waiting }

inductive Step : St α → St α → Prop where
  | add {q : St α} (x : α) (hnew : ∀ y ∈ q.waiting, rank y ≠ rank x)
      (hlast : ∀ y ∈ q.served.getLast?, rank y < rank x) : Step q (q.add x)
  | serve {q : St α} (x : α) (w : Multiset α) (hw : q.waiting = x ::ₘ w) (hmin : ∀ y ∈ w, rank x ≤ rank y) :
      Step q ⟨q.added, w, q.served ++ [x]⟩

abbrev Run : St α → St α → Prop := Relation.ReflTransGen (Step rank)

structure Good (q : St α) : Prop where
  sorted : q.served.Pairwise (rank · < rank ·)
  behind : ∀ x ∈ q.served, ∀ y ∈ q.waiting, rank x < rank y
  distinct : (q.waiting.map rank).Nodup
  conserved : (q.served : Multiset α) + q.waiting = q.added

omit [LinearOrder ρ] in
theorem coe_append_singleton (l : List α) (x : α) : ((l ++ [x] : List α) : Multiset α) = x ::ₘ (l : Multiset α) := by
  rw [← Multiset.coe_add, add_comm, Multiset.coe_singleton, Multiset.singleton_add]

variable {rank} {q q' : St α}

/-- What ranks behind the element served last ranks behind all of them. -/
theorem Good.behind_all (h : Good rank q) {x : α} (hlast : ∀ y ∈ q.served.getLast?, rank y < rank x) :
    ∀ y ∈ q.served, rank y < rank x := by
  intro y hy
  rcases List.eq_nil_or_concat q.served with hnil | ⟨l, z, hl⟩
  · rw [hnil] at hy; cases hy
  · rw [List.concat_eq_append] at hl
    have hz : rank z < rank x := hlast z (by simp [hl])
    have hsorted := h.sorted
    rw [hl] at hy hsorted
    rcases List.mem_append.1 hy with hy | hy
    · exact ((List.pairwise_append.1 hsorted).2.2 y hy z (List.mem_singleton_self z)).trans hz
    · rw [List.mem_singleton.1 hy]; exact hz

theorem Good.step (h : Good rank q) (hs : Step rank q q') : Good rank q' := by
  cases hs with
  | add x hnew hlast =>
    refine ⟨h.sorted, fun y hy z hz => ?_, ?_, ?_⟩
    · rcases Multiset.mem_cons.1 hz with rfl | hz
      · exact h.behind_all hlast y hy
      · exact h.behind y hy z hz
    · simp only [St.add, Multiset.map_cons, Multiset.nodup_cons, Multiset.mem_map, not_exists, not_and]
      exact ⟨hnew, h.distinct⟩
    · simp only [St.add]
      rw [coe_append_singleton, ← h.conserved, Multiset.add_cons]
  | serve x w hw hmin =>
    have hx : x ∈ q.waiting := hw ▸ Multiset.mem_cons_self x w
    have hdistinct := h.distinct
    rw [hw, Multiset.map_cons, Multiset.nodup_cons] at hdistinct
    refine ⟨List.pairwise_append.2 ⟨h.sorted, List.pairwise_singleton _ _, fun y hy z hz => ?_⟩, fun y hy z hz => ?_,
      hdistinct.2, ?_⟩
    · rw [List.mem_singleton.1 hz]
      exact h.behind y hy x hx
    · rcases List.mem_append.1 hy with hy | hy
      · exact h.behind y hy z (hw ▸ Multiset.mem_cons_of_mem hz)
      · rw [List.mem_singleton.1 hy]
        refine lt_of_le_of_ne (hmin z hz) fun he => hdistinct.1 ?_
        rw [he]; exact Multiset.mem_map_of_mem rank hz
    · have hcons := h.conserved
      rw [hw, Multiset.add_cons] at hcons
      simp only
      rw [coe_append_singleton, Multiset.cons_add, hcons]

theorem good_init : Good rank (St.init : St α) :=
  ⟨List.Pairwise.nil, by simp [St.init], by simp [St.init], by simp [St.init]⟩

/-- The run lemma. -/
theorem Run.good (h : Run rank St.init q) : Good rank q := by
  induction h with
  | refl => exact good_init
  | tail _ hs ih => exact ih.step hs

theorem Good.mem_added (h : Good rank q) {x : α} : x ∈ q.added ↔ x ∈ q.served ∨ x ∈ q.waiting := by
  rw [← Multiset.mem_coe, ← h.conserved, Multiset.mem_add, Multiset.mem_coe]

/-- An element that is not served yet comes behind all that are. -/
theorem Good.unserved (h : Good rank q) {x y : α} (hx : x ∈ q.added) (hn : x ∉ q.served) (hy : y ∈ q.served) :
    rank y < rank x :=
  h.behind y hy x ((h.mem_added.1 hx).resolve_left hn)

/-- Nothing waits exactly if everything was served. -/
theorem Good.waiting_eq_zero (h : Good rank q) : q.waiting = 0 ↔ ∀ x ∈ q.added, x ∈ q.served := by
  constructor
  · intro hw x hx
    rcases h.mem_added.1 hx with hs | hs
    · exact hs
    · rw [hw] at hs; exact absurd hs (Multiset.notMem_zero x)
  · intro hall
    refine Multiset.eq_zero_of_forall_notMem fun x hx => ?_
    have hserved : x ∈ q.served := hall x (h.mem_added.2 (.inr hx))
    exact lt_irrefl _ (h.behind x hserved x hx)

end PriorityQueue
