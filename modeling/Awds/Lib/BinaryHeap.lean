import Mathlib

/-!
# The order of a binary heap

The heap is a memory `a : ℕ → α` with its first `n` cells in use, the children of cell `i` are `2i + 1` and
`2i + 2`. `Ordered`: no cell ranks before its parent. While an element moves, the order holds but at
the cell `i` where it is (`OrderedBut`); moving up the element ranks before its children (`Up`), moving down
behind its parent (`Down`). A move is a swap of `i` with its parent or a child.
-/

namespace BinaryHeap

variable {α ρ : Type*}

def parent (i : ℕ) : ℕ := (i - 1) / 2
def left (i : ℕ) : ℕ := i * 2 + 1
def right (i : ℕ) : ℕ := (i + 1) * 2

theorem parent_lt {i : ℕ} (h : 0 < i) : parent i < i := by unfold parent; omega

/-- The children of a cell. -/
theorem parent_eq_iff {i j : ℕ} (hj : 0 < j) : parent j = i ↔ j = left i ∨ j = right i := by
  unfold parent left right; omega

/-! ## What the cells hold -/

def contents (a : ℕ → α) (n : ℕ) : Multiset α := (Multiset.range n).map a

@[simp] theorem contents_zero (a : ℕ → α) : contents a 0 = 0 := rfl

theorem contents_succ (a : ℕ → α) (n : ℕ) : contents a (n + 1) = a n ::ₘ contents a n := by
  rw [contents, Multiset.range_succ, Multiset.map_cons]; rfl

theorem mem_contents {a : ℕ → α} {n : ℕ} {x : α} : x ∈ contents a n ↔ ∃ i < n, a i = x := by
  simp [contents]

theorem contents_congr {a b : ℕ → α} {n : ℕ} (h : ∀ i < n, a i = b i) : contents a n = contents b n :=
  Multiset.map_congr rfl fun i hi => h i (Multiset.mem_range.1 hi)

theorem contents_swap (a : ℕ → α) {n i j : ℕ} (hi : i < n) (hj : j < n) :
    contents (a ∘ Equiv.swap i j) n = contents a n := by
  have hrange : (Multiset.range n).map (Equiv.swap i j) = Multiset.range n := by
    refine (Multiset.Nodup.ext ((Multiset.nodup_range n).map (Equiv.injective _)) (Multiset.nodup_range n)).2 fun k => ?_
    simp only [Multiset.mem_map, Multiset.mem_range]
    constructor
    · rintro ⟨m, hm, rfl⟩
      rw [Equiv.swap_apply_def]
      split_ifs <;> assumption
    · intro hk
      refine ⟨Equiv.swap i j k, ?_, Equiv.swap_apply_self i j k⟩
      rw [Equiv.swap_apply_def]
      split_ifs <;> assumption
  rw [contents, ← Multiset.map_map, hrange]; rfl

@[simp] theorem swap_left (a : ℕ → α) (i j : ℕ) : (a ∘ Equiv.swap i j) i = a j := by simp
@[simp] theorem swap_right (a : ℕ → α) (i j : ℕ) : (a ∘ Equiv.swap i j) j = a i := by simp

theorem swap_of_ne (a : ℕ → α) {i j k : ℕ} (hi : k ≠ i) (hj : k ≠ j) : (a ∘ Equiv.swap i j) k = a k := by
  rw [Function.comp_apply, Equiv.swap_apply_of_ne_of_ne hi hj]

/-- Shifting a cell into a hole is a swap with what belongs into the hole. -/
theorem update_shift (a : ℕ → α) {i j : ℕ} (hij : j ≠ i) (x : α) :
    Function.update (Function.update a i (a j)) j x = Function.update a i x ∘ Equiv.swap i j := by
  funext k
  by_cases hi : k = i
  · subst hi
    rw [swap_left, Function.update_of_ne hij.symm, Function.update_self, Function.update_of_ne hij]
  · by_cases hj : k = j
    · subst hj
      rw [swap_right, Function.update_self, Function.update_self]
    · rw [swap_of_ne _ hi hj, Function.update_of_ne hj, Function.update_of_ne hi, Function.update_of_ne hi]

/-- The last cell takes the place of the first one. -/
theorem contents_replace (a : ℕ → α) (m : ℕ) : a 0 ::ₘ contents (Function.update a 0 (a m)) m = contents a (m + 1) := by
  have hsame : contents (Function.update a 0 (a m)) m = contents (a ∘ Equiv.swap 0 m) m := by
    refine contents_congr fun i hi => ?_
    by_cases hi0 : i = 0
    · subst hi0
      rw [Function.update_self, swap_left]
    · rw [Function.update_of_ne hi0, swap_of_ne a hi0 hi.ne]
  rw [hsame, ← contents_swap a (Nat.succ_pos m) (Nat.lt_succ_self m), contents_succ, swap_right]

/-! ## The order -/

variable [LinearOrder ρ] (rank : α → ρ)

def Ordered (a : ℕ → α) (n : ℕ) : Prop := ∀ i, 0 < i → i < n → rank (a (parent i)) ≤ rank (a i)

/-- In order but at `i`. -/
structure OrderedBut (a : ℕ → α) (n i : ℕ) : Prop where
  off : ∀ j, 0 < j → j < n → j ≠ i → parent j ≠ i → rank (a (parent j)) ≤ rank (a j)
  across : 0 < i → ∀ j, 0 < j → j < n → parent j = i → rank (a (parent i)) ≤ rank (a j)

/-- The element at `i` moves up. -/
structure Up (a : ℕ → α) (n i : ℕ) : Prop extends OrderedBut rank a n i where
  below : ∀ j, 0 < j → j < n → parent j = i → rank (a i) ≤ rank (a j)

/-- The element at `i` moves down. -/
structure Down (a : ℕ → α) (n i : ℕ) : Prop extends OrderedBut rank a n i where
  above : 0 < i → rank (a (parent i)) ≤ rank (a i)

variable {rank} {a b : ℕ → α} {n i : ℕ}

theorem Ordered.root_le (h : Ordered rank a n) : ∀ i < n, rank (a 0) ≤ rank (a i) := by
  intro i
  induction i using Nat.strong_induction_on with
  | _ i ih =>
    intro hi
    rcases Nat.eq_zero_or_pos i with rfl | hpos
    · exact le_rfl
    · exact (ih _ (parent_lt hpos) ((parent_lt hpos).trans hi)).trans (h i hpos hi)

theorem Ordered.but (h : Ordered rank a n) (i : ℕ) : OrderedBut rank a n i where
  off j hpos hj _ _ := h j hpos hj
  across hi j hpos hj hji := by
    have hlt : i < j := hji ▸ parent_lt hpos
    refine (h i hi (hlt.trans hj)).trans ?_
    rw [← hji]
    exact h j hpos hj

/-- The order but at the root does not depend on the root. -/
theorem OrderedBut.root (h : OrderedBut rank a n 0) (hab : ∀ i, 0 < i → i < n → b i = a i) : OrderedBut rank b n 0 where
  off j hpos hj hj0 hp := by
    have hpp : 0 < parent j := Nat.pos_of_ne_zero hp
    rw [hab j hpos hj, hab _ hpp ((parent_lt hpos).trans hj)]
    exact h.off j hpos hj hj0 hp
  across h0 := absurd h0 (lt_irrefl 0)

/-- Swapping an element with its parent moves the place where the order may fail. -/
theorem OrderedBut.swap_parent (h : OrderedBut rank a n i) (hpos : 0 < i) (hi : i < n) :
    OrderedBut rank (a ∘ Equiv.swap i (parent i)) n (parent i) where
  off j hj hjn hjp hpp := by
    have hji : j ≠ i := by rintro rfl; exact hpp rfl
    rw [swap_of_ne a hji hjp]
    by_cases hpi : parent j = i
    · rw [hpi, swap_left]
      exact h.across hpos j hj hjn hpi
    · rw [swap_of_ne a hpi hpp]
      exact h.off j hj hjn hji hpi
  across hp j hj hjn hjp := by
    have hlt : parent (parent i) < parent i := parent_lt hp
    have hpi : parent i < i := parent_lt hpos
    have hparent : rank (a (parent (parent i))) ≤ rank (a (parent i)) :=
      h.off (parent i) hp (hpi.trans hi) hpi.ne (hlt.trans hpi).ne
    rw [swap_of_ne a (hlt.trans hpi).ne hlt.ne]
    by_cases hji : j = i
    · rw [hji, swap_left]
      exact hparent
    · have hjne : j ≠ parent i := by rintro rfl; exact (parent_lt hj).ne hjp
      rw [swap_of_ne a hji hjne]
      refine hparent.trans ?_
      rw [← hjp]
      exact h.off j hj hjn hji (by rw [hjp]; exact hpi.ne)

theorem Up.swap (h : Up rank a n i) (hpos : 0 < i) (hi : i < n) (hlt : rank (a i) < rank (a (parent i))) :
    Up rank (a ∘ Equiv.swap i (parent i)) n (parent i) where
  toOrderedBut := h.toOrderedBut.swap_parent hpos hi
  below j hj hjn hjp := by
    rw [swap_right]
    by_cases hji : j = i
    · rw [hji, swap_left]
      exact hlt.le
    · have hjne : j ≠ parent i := by rintro rfl; exact (parent_lt hj).ne hjp
      rw [swap_of_ne a hji hjne]
      refine hlt.le.trans ?_
      rw [← hjp]
      exact h.off j hj hjn hji (by rw [hjp]; exact (parent_lt hpos).ne)

theorem Up.done (h : Up rank a n i) (hstop : 0 < i → rank (a (parent i)) ≤ rank (a i)) : Ordered rank a n := by
  intro j hj hjn
  by_cases hji : j = i
  · subst hji; exact hstop hj
  · by_cases hp : parent j = i
    · rw [hp]; exact h.below j hj hjn hp
    · exact h.off j hj hjn hji hp

/-- Swapping an element with its first child. -/
theorem Down.swap (h : Down rank a n i) {x : ℕ} (hx : 0 < x) (hxn : x < n) (hxi : parent x = i)
    (hmin : ∀ j, 0 < j → j < n → parent j = i → rank (a x) ≤ rank (a j)) (hlt : rank (a x) < rank (a i)) :
    Down rank (a ∘ Equiv.swap i x) n x := by
  have hix : i < x := hxi ▸ parent_lt hx
  refine { off := fun j hj hjn hjx hpx => ?_, across := fun _ j hj hjn hjx => ?_, above := fun _ => ?_ }
  · by_cases hji : j = i
    · subst hji
      rw [swap_left, swap_of_ne a (parent_lt hj).ne hpx]
      exact h.across hj x hx hxn hxi
    · rw [swap_of_ne a hji hjx]
      by_cases hpi : parent j = i
      · rw [hpi, swap_left]
        exact hmin j hj hjn hpi
      · rw [swap_of_ne a hpi hpx]
        exact h.off j hj hjn hji hpi
  · have hxj : x < j := hjx ▸ parent_lt hj
    rw [hxi, swap_left, swap_of_ne a (hix.trans hxj).ne' hxj.ne']
    rw [← hjx]
    exact h.off j hj hjn (hix.trans hxj).ne' (by rw [hjx]; exact hix.ne')
  · rw [hxi, swap_left, swap_right]
    exact hlt.le

theorem Down.done (h : Down rank a n i) (hstop : ∀ j, 0 < j → j < n → parent j = i → rank (a i) ≤ rank (a j)) :
    Ordered rank a n := by
  intro j hj hjn
  by_cases hji : j = i
  · subst hji; exact h.above hj
  · by_cases hp : parent j = i
    · rw [hp]; exact hstop j hj hjn hp
    · exact h.off j hj hjn hji hp

end BinaryHeap
