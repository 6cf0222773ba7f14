import Mathlib

/-!
# Formats of sequential fields

A `Format` says which items a buffer is made of: an item has a label and a length, and what follows
may depend on the bytes it covers. An item whose label is a `value` uses its bytes up; any other one
(the header of a list, say) lies over bytes that later items use up. `run` lays the items over a
buffer up to the first one that does not fit.

* `run_contiguous`, `flatten_slices` — the values are contiguous, and their bytes are a part of the
  buffer, in order and without gaps;
* `run_append` — a shorter buffer has the same items, up to the first that does not fit;
* `run_all` — what holds of all labels and ends of the format holds of the items and the end.
-/

namespace Layout

variable {β L A : Type}

/-- The `len` bytes from `start` on, under a label. -/
structure Item (L : Type) where
  label : L
  start : Nat
  len : Nat
deriving DecidableEq, Repr

inductive Format (β L A : Type) where
  | done (a : A)
  | item (l : L) (len : Nat) (next : List β → Format β L A)

/-- The item lies within the first `n` bytes. -/
def Item.fits (n : Nat) (it : Item L) : Bool := it.start + it.len ≤ n

def slice (buf : List β) (start len : Nat) : List β := (buf.drop start).take len

def Item.bytes (buf : List β) (it : Item L) : List β := slice buf it.start it.len

/-- The items from `off` on, and where the format is done. `none`: an item does not fit. -/
def Format.run (value : L → Bool) (buf : List β) : Format β L A → Nat → List (Item L) × Option (Nat × A)
  | .done a, off => ([], some (off, a))
  | .item l len next, off =>
    if off + len ≤ buf.length then
      let (items, stop) := (next (slice buf off len)).run value buf (if value l then off + len else off)
      (⟨l, off, len⟩ :: items, stop)
    else ([], none)

/-- Each item starts where the one before it ends. -/
def Contiguous : Nat → List (Item L) → Prop
  | _, [] => True
  | off, it :: its => it.start = off ∧ Contiguous (off + it.len) its

def total (its : List (Item L)) : Nat := (its.map Item.len).sum

@[simp] theorem total_nil : total ([] : List (Item L)) = 0 := rfl
@[simp] theorem total_cons (it : Item L) (its : List (Item L)) : total (it :: its) = it.len + total its := by
  simp [total]

theorem slice_add (buf : List β) (off m n : Nat) : slice buf off (m + n) = slice buf off m ++ slice buf (off + m) n := by
  simp only [slice]
  rw [List.take_add, List.drop_drop]

/-- An extension of the buffer does not change what lies within it. -/
theorem slice_append {buf ext : List β} {off len : Nat} (h : off + len ≤ buf.length) :
    slice (buf ++ ext) off len = slice buf off len := by
  simp only [slice]
  rw [List.drop_append_of_le_length (by omega), List.take_append_of_le_length (by simp; omega)]

/-! ## Contiguous items -/

theorem Contiguous.le_start {its : List (Item L)} : ∀ {off : Nat}, Contiguous off its → ∀ it ∈ its, off ≤ it.start := by
  induction its with
  | nil => intro off _ it hit; cases hit
  | cons x its ih =>
    intro off h it hit
    rcases List.mem_cons.1 hit with rfl | hit
    · exact h.1.ge
    · have := ih h.2 it hit
      omega

/-- In order, without an overlap. -/
theorem Contiguous.pairwise {its : List (Item L)} :
    ∀ {off : Nat}, Contiguous off its → its.Pairwise fun a b => a.start + a.len ≤ b.start := by
  induction its with
  | nil => intro off _; exact List.Pairwise.nil
  | cons x its ih =>
    intro off h
    refine List.pairwise_cons.2 ⟨fun y hy => ?_, ih h.2⟩
    have hstart := h.1
    have hy := h.2.le_start y hy
    omega

theorem Contiguous.total_le {n : Nat} {its : List (Item L)} :
    ∀ {off : Nat}, Contiguous off its → (∀ it ∈ its, it.fits n = true) → off ≤ n → off + total its ≤ n := by
  induction its with
  | nil => intro off _ _ hle; simpa using hle
  | cons it its ih =>
    intro off h hfits hle
    rw [List.forall_mem_cons] at hfits
    have hit : it.start + it.len ≤ n := by simpa [Item.fits] using hfits.1
    have hstart := h.1
    have htotal := ih h.2 hfits.2 (by omega)
    rw [total_cons]
    omega

/-- The bytes of contiguous items, put together. -/
theorem flatten_slices (buf : List β) {its : List (Item L)} :
    ∀ {off : Nat}, Contiguous off its → (its.map (Item.bytes buf)).flatten = slice buf off (total its) := by
  induction its with
  | nil => intro off _; simp [slice]
  | cons it its ih =>
    intro off h
    rw [List.map_cons, List.flatten_cons, ih h.2, total_cons, slice_add, Item.bytes, h.1]

/-! ## The items of a buffer -/

section
variable {value : L → Bool} {buf : List β} {l : L} {len off : Nat} {next : List β → Format β L A}

theorem run_item_of_le (h : off + len ≤ buf.length) :
    (Format.item l len next).run value buf off =
      (⟨l, off, len⟩ :: ((next (slice buf off len)).run value buf (if value l then off + len else off)).1,
        ((next (slice buf off len)).run value buf (if value l then off + len else off)).2) := by
  simp only [Format.run, if_pos h]

theorem run_item_of_lt (h : ¬off + len ≤ buf.length) : (Format.item l len next).run value buf off = ([], none) := by
  simp only [Format.run, if_neg h]

end

variable {value : L → Bool}

theorem run_fits (buf : List β) (f : Format β L A) :
    ∀ off, ∀ it ∈ (f.run value buf off).1, it.fits buf.length = true := by
  induction f with
  | done a => intro off it hit; cases hit
  | item l len next ih =>
    intro off it hit
    by_cases h : off + len ≤ buf.length
    · rw [run_item_of_le h] at hit
      rcases List.mem_cons.1 hit with rfl | hit
      · simpa [Item.fits] using h
      · exact ih _ _ it hit
    · rw [run_item_of_lt h] at hit
      cases hit

theorem run_contiguous (buf : List β) (f : Format β L A) :
    ∀ off, Contiguous off ((f.run value buf off).1.filter (value ·.label)) := by
  induction f with
  | done a => intro off; trivial
  | item l len next ih =>
    intro off
    by_cases h : off + len ≤ buf.length
    · rw [run_item_of_le h, List.filter_cons]
      by_cases hv : value l = true
      · rw [if_pos hv, if_pos hv]
        exact ⟨rfl, ih _ _⟩
      · rw [if_neg hv, if_neg hv]
        exact ih _ _
    · rw [run_item_of_lt h]
      trivial

/-- The format is done behind the last value. -/
theorem run_stop (buf : List β) (f : Format β L A) :
    ∀ off e a, (f.run value buf off).2 = some (e, a) → e = off + total ((f.run value buf off).1.filter (value ·.label)) := by
  induction f with
  | done a => intro off e b h; cases h; rfl
  | item l len next ih =>
    intro off e a h
    by_cases hle : off + len ≤ buf.length
    · rw [run_item_of_le hle] at h ⊢
      rw [List.filter_cons]
      have hstop := ih _ _ _ _ h
      by_cases hv : value l = true
      · rw [if_pos hv] at hstop
        rw [if_pos hv, if_pos hv, total_cons]
        dsimp only
        omega
      · rw [if_neg hv] at hstop
        rw [if_neg hv, if_neg hv]
        exact hstop
    · rw [run_item_of_lt hle] at h
      cases h

/-- **A shorter buffer.** It has the same items, up to the first that does not fit in; and unless there
is one, the format is done at the same place. -/
theorem run_append (buf ext : List β) (f : Format β L A) :
    ∀ off, (f.run value buf off).1 = (f.run value (buf ++ ext) off).1.takeWhile (Item.fits buf.length) ∧
      (∀ r, (f.run value buf off).2 = some r ↔
        (f.run value (buf ++ ext) off).2 = some r ∧ ∀ it ∈ (f.run value (buf ++ ext) off).1, it.fits buf.length = true) := by
  induction f with
  | done a => intro off; simp [Format.run]
  | item l len next ih =>
    intro off
    by_cases h : off + len ≤ buf.length
    · have hext : off + len ≤ (buf ++ ext).length := by rw [List.length_append]; omega
      have hfit : Item.fits buf.length (⟨l, off, len⟩ : Item L) = true := by simpa [Item.fits] using h
      obtain ⟨hitems, hstop⟩ := ih (slice buf off len) (if value l then off + len else off)
      rw [run_item_of_le h, run_item_of_le hext, slice_append h]
      refine ⟨?_, fun r => ?_⟩
      · rw [List.takeWhile_cons_of_pos hfit, ← hitems]
      · rw [List.forall_mem_cons, hstop r]
        simp only [hfit, true_and]
    · rw [run_item_of_lt h]
      have hfit : Item.fits buf.length (⟨l, off, len⟩ : Item L) ≠ true := by simpa [Item.fits] using h
      by_cases hext : off + len ≤ (buf ++ ext).length
      · rw [run_item_of_le hext]
        refine ⟨by rw [List.takeWhile_cons_of_neg hfit], fun r => ?_⟩
        constructor
        · intro hr; cases hr
        · rintro ⟨-, hall⟩
          exact absurd (hall _ List.mem_cons_self) hfit
      · rw [run_item_of_lt hext]
        simp

/-! ## What a format mentions -/

/-- All labels of the format are `P`, and all its ends are `Q`. -/
def Format.All (P : L → Prop) (Q : A → Prop) : Format β L A → Prop
  | .done a => Q a
  | .item l _ next => P l ∧ ∀ v, (next v).All P Q

theorem run_all {P : L → Prop} {Q : A → Prop} (buf : List β) {f : Format β L A} (hf : f.All P Q) :
    ∀ off, (∀ it ∈ (f.run value buf off).1, P it.label) ∧ ∀ e a, (f.run value buf off).2 = some (e, a) → Q a := by
  induction f with
  | done a =>
    intro off
    refine ⟨fun it hit => ?_, fun e b h => ?_⟩
    · cases hit
    · cases h; exact hf
  | item l len next ih =>
    intro off
    by_cases h : off + len ≤ buf.length
    · rw [run_item_of_le h, List.forall_mem_cons]
      obtain ⟨hitems, hstop⟩ := ih _ (hf.2 (slice buf off len)) (if value l then off + len else off)
      exact ⟨⟨hf.1, hitems⟩, hstop⟩
    · rw [run_item_of_lt h]
      refine ⟨fun it hit => ?_, fun e b h => ?_⟩
      · cases hit
      · cases h

end Layout
