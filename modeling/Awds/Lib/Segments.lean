import Mathlib

/-!
# Segments of a stream

A delimiter ends a segment. `ended` are the segments of a list that a delimiter ends, `rest` is what comes behind
the last delimiter. `ended_append`, `rest_append`: a stream can be cut anywhere, with the rest carried over. `words` are
the parts between delimiters that are not empty.
-/

namespace Segments

variable {α : Type*} {p : α → Bool}

def ended (p : α → Bool) (xs : List α) : List (List α) := (xs.splitOnP p).dropLast

def rest (p : α → Bool) (xs : List α) : List α := (xs.splitOnP p).getLast (List.splitOnP_ne_nil p xs)

/-- Either there is no delimiter, or there is a first one. -/
theorem cut_induction {motive : List α → Prop} (free : ∀ s, (∀ x ∈ s, p x = false) → motive s)
    (cut : ∀ s d t, (∀ x ∈ s, p x = false) → p d = true → motive t → motive (s ++ d :: t)) (xs : List α) : motive xs := by
  -- the list behind a part without delimiters
  have key : ∀ s, (∀ x ∈ s, p x = false) → motive (s ++ xs) := by
    induction xs with
    | nil =>
      intro s hs
      rw [List.append_nil]
      exact free s hs
    | cons x xs ih =>
      intro s hs
      cases hx : p x with
      | true => exact cut s x xs hs hx (ih [] nofun)
      | false =>
        rw [List.append_cons]
        refine ih (s ++ [x]) fun y hy => ?_
        rcases List.mem_append.1 hy with hy | hy
        · exact hs y hy
        · rw [List.mem_singleton.1 hy, hx]
  exact key [] nofun

theorem ended_free {s : List α} (h : ∀ x ∈ s, p x = false) : ended p s = [] := by
  rw [ended, List.splitOnP_eq_singleton h]
  rfl

theorem rest_free {s : List α} (h : ∀ x ∈ s, p x = false) : rest p s = s := by
  simp only [rest, List.splitOnP_eq_singleton h, List.getLast_singleton]

theorem ended_cut {s : List α} {d : α} (hs : ∀ x ∈ s, p x = false) (hd : p d = true) (t : List α) :
    ended p (s ++ d :: t) = s :: ended p t := by
  rw [ended, List.splitOnP_append_cons_of_forall_mem hs d hd, List.dropLast_cons_of_ne_nil (List.splitOnP_ne_nil p t)]
  rfl

theorem rest_cut {s : List α} {d : α} (hs : ∀ x ∈ s, p x = false) (hd : p d = true) (t : List α) :
    rest p (s ++ d :: t) = rest p t := by
  simp only [rest, List.splitOnP_append_cons_of_forall_mem hs d hd, List.getLast_cons (List.splitOnP_ne_nil p t)]

theorem mem_of_mem_rest {x : α} (xs : List α) : x ∈ rest p xs → x ∈ xs := by
  induction xs using cut_induction (p := p) with
  | free s hs => rw [rest_free hs]; exact id
  | cut s d t hs hd ih =>
    rw [rest_cut hs hd]
    intro h
    exact List.mem_append_right s (List.mem_cons_of_mem d (ih h))

theorem ended_append (xs ys : List α) : ended p (xs ++ ys) = ended p xs ++ ended p (rest p xs ++ ys) := by
  induction xs using cut_induction (p := p) with
  | free s hs => rw [ended_free hs, rest_free hs, List.nil_append]
  | cut s d t hs hd ih =>
    rw [List.append_assoc, List.cons_append, ended_cut hs hd, ended_cut hs hd, rest_cut hs hd, ih, List.cons_append]

theorem rest_append (xs ys : List α) : rest p (xs ++ ys) = rest p (rest p xs ++ ys) := by
  induction xs using cut_induction (p := p) with
  | free s hs => rw [rest_free hs]
  | cut s d t hs hd ih => rw [List.append_assoc, List.cons_append, rest_cut hs hd, rest_cut hs hd, ih]

/-! ## Words -/

/-- The longest parts without delimiters. -/
def words (p : α → Bool) (xs : List α) : List (List α) := (xs.splitOnP p).filter fun w => !w.isEmpty

theorem words_delims_append {b : List α} (hb : ∀ x ∈ b, p x = true) (xs : List α) : words p (b ++ xs) = words p xs := by
  induction b with
  | nil => rfl
  | cons x b ih =>
    have hx := hb x List.mem_cons_self
    rw [← ih fun y hy => hb y (List.mem_cons_of_mem x hy), words, List.cons_append, List.splitOnP_cons_eq_if_modifyHead,
      if_pos hx]
    rfl

theorem words_delims {b : List α} (hb : ∀ x ∈ b, p x = true) : words p b = [] := by
  have h := words_delims_append hb []
  rwa [List.append_nil] at h

theorem words_last {b w : List α} (hb : ∀ x ∈ b, p x = true) (hw : ∀ x ∈ w, p x = false) (hne : w ≠ []) :
    words p (b ++ w) = [w] := by
  rw [words_delims_append hb, words, List.splitOnP_eq_singleton hw]
  simpa using hne

theorem words_cut {b w : List α} {d : α} (hb : ∀ x ∈ b, p x = true) (hw : ∀ x ∈ w, p x = false) (hne : w ≠ [])
    (hd : p d = true) (xs : List α) : words p (b ++ w ++ d :: xs) = w :: words p xs := by
  rw [List.append_assoc, words_delims_append hb, words, List.splitOnP_append_cons_of_forall_mem hw d hd,
    List.filter_cons_of_pos (by simpa using hne), words]

/-- Either there is no word, or there is a first one, which the end or a delimiter ends. -/
theorem word_induction {motive : List α → Prop} (none : ∀ b, (∀ x ∈ b, p x = true) → motive b)
    (last : ∀ b w, (∀ x ∈ b, p x = true) → (∀ x ∈ w, p x = false) → w ≠ [] → motive (b ++ w))
    (cut : ∀ b w d t, (∀ x ∈ b, p x = true) → (∀ x ∈ w, p x = false) → w ≠ [] → p d = true → motive t →
      motive (b ++ w ++ d :: t)) (xs : List α) : motive xs := by
  -- the list behind delimiters and the beginning of a word
  have key : ∀ b w, (∀ x ∈ b, p x = true) → (∀ x ∈ w, p x = false) → motive (b ++ w ++ xs) := by
    induction xs with
    | nil =>
      intro b w hb hw
      rw [List.append_nil]
      by_cases hne : w = []
      · rw [hne, List.append_nil]
        exact none b hb
      · exact last b w hb hw hne
    | cons x xs ih =>
      intro b w hb hw
      cases hx : p x with
      | true =>
        by_cases hne : w = []
        · rw [hne, List.append_nil, List.append_cons, ← List.append_nil (b ++ [x])]
          refine ih (b ++ [x]) [] (fun y hy => ?_) nofun
          rcases List.mem_append.1 hy with hy | hy
          · exact hb y hy
          · rw [List.mem_singleton.1 hy, hx]
        · exact cut b w x xs hb hw hne hx (ih [] [] nofun nofun)
      | false =>
        rw [List.append_cons, List.append_assoc b]
        refine ih b (w ++ [x]) hb fun y hy => ?_
        rcases List.mem_append.1 hy with hy | hy
        · exact hw y hy
        · rw [List.mem_singleton.1 hy, hx]
  exact key [] [] nofun nofun

end Segments
