import Mathlib

/-!
# A multimap as a list in key order

`Multimap.insert` puts an element behind every element whose key is not greater, which is what
`std::multimap::insert` does: equal keys stay in the order of their insertion.
-/

namespace Multimap

variable {α κ : Type*} [LinearOrder κ] (key : α → κ)

/-- Insert behind all elements with a key `≤ key x`. -/
def insert (x : α) : List α → List α
  | [] => [x]
  | y :: ys => if key x < key y then x :: y :: ys else y :: insert x ys

/-- Increasing keys. -/
def Sorted (l : List α) : Prop := l.Pairwise fun a b => key a ≤ key b

theorem insert_perm (x : α) : ∀ l : List α, (insert key x l).Perm (x :: l)
  | [] => .refl _
  | y :: ys => by
    simp only [insert]
    split
    · exact .refl _
    · exact ((insert_perm x ys).cons y).trans (.swap x y ys)

variable {key}

@[simp] theorem mem_insert {x y : α} {l : List α} : y ∈ insert key x l ↔ y = x ∨ y ∈ l := by
  rw [(insert_perm key x l).mem_iff, List.mem_cons]

/-- What was there stays in its order. -/
theorem sublist_insert (x : α) : ∀ l : List α, l.Sublist (insert key x l)
  | [] => List.nil_sublist _
  | y :: ys => by
    simp only [insert]
    split
    · exact List.sublist_cons_self x _
    · exact (sublist_insert x ys).cons_cons y

/-- The front stays the front unless the new key is smaller. -/
theorem insert_cons_of_le {x y : α} (ys : List α) (h : key y ≤ key x) :
    insert key x (y :: ys) = y :: insert key x ys := by
  simp [insert, not_lt.2 h]

theorem insert_cons_of_lt {x y : α} (ys : List α) (h : key x < key y) :
    insert key x (y :: ys) = x :: y :: ys := by
  simp [insert, h]

theorem sorted_insert {x : α} : ∀ {l : List α}, Sorted key l → Sorted key (insert key x l)
  | [], _ => by simp [insert, Sorted]
  | y :: ys, h => by
    have hy : ∀ z ∈ ys, key y ≤ key z := (List.pairwise_cons.1 h).1
    have hys : Sorted key ys := (List.pairwise_cons.1 h).2
    simp only [insert]
    split
    · rename_i hlt
      refine List.pairwise_cons.2 ⟨fun z hz => ?_, h⟩
      rcases List.mem_cons.1 hz with rfl | hz
      · exact hlt.le
      · exact hlt.le.trans (hy z hz)
    · rename_i hge
      refine List.pairwise_cons.2 ⟨fun z hz => ?_, sorted_insert hys⟩
      rcases mem_insert.1 hz with rfl | hz
      · exact not_lt.1 hge
      · exact hy z hz

/-- Equal keys stay in the order of their insertion: when elements are numbered as they come, the
list is in the order of (key, number). -/
theorem stable_insert {ν : Type*} [LinearOrder ν] {num : α → ν} {x : α} :
    ∀ {l : List α}, l.Pairwise (fun a b => toLex (key a, num a) < toLex (key b, num b)) → (∀ y ∈ l, num y < num x) →
      (insert key x l).Pairwise fun a b => toLex (key a, num a) < toLex (key b, num b)
  | [], _, _ => List.pairwise_singleton _ _
  | y :: ys, h, hnum => by
    have hy := (List.pairwise_cons.1 h).1
    simp only [insert]
    split
    · rename_i hlt
      refine List.pairwise_cons.2 ⟨fun z hz => Prod.Lex.toLex_lt_toLex.2 (.inl ?_), h⟩
      rcases List.mem_cons.1 hz with rfl | hz
      · exact hlt
      · rcases Prod.Lex.toLex_lt_toLex.1 (hy z hz) with hyz | ⟨hyz, -⟩
        · exact hlt.trans hyz
        · exact hlt.trans_eq hyz
    · rename_i hge
      refine List.pairwise_cons.2 ⟨fun z hz => ?_, stable_insert (List.pairwise_cons.1 h).2 fun z hz =>
        hnum z (List.mem_cons_of_mem y hz)⟩
      rcases mem_insert.1 hz with rfl | hz
      · refine Prod.Lex.toLex_lt_toLex.2 ?_
        rcases (not_lt.1 hge).lt_or_eq with hlt | heq
        · exact .inl hlt
        · exact .inr ⟨heq, hnum y List.mem_cons_self⟩
      · exact hy z hz

theorem Sorted.filter {l : List α} (p : α → Bool) (h : Sorted key l) : Sorted key (l.filter p) :=
  List.Pairwise.filter p h

/-- In key order, a new smallest key goes to the front. -/
theorem insert_of_all_lt {x : α} : ∀ {l : List α}, (∀ y ∈ l, key x < key y) → insert key x l = x :: l
  | [], _ => rfl
  | y :: ys, h => insert_cons_of_lt ys (h y List.mem_cons_self)

/-- What is not greater stays in front. -/
theorem insert_append {x : α} : ∀ {l l' : List α}, (∀ y ∈ l, key y ≤ key x) →
    insert key x (l ++ l') = l ++ insert key x l'
  | [], _, _ => rfl
  | y :: ys, l', h => by
    have hys : ∀ z ∈ ys, key z ≤ key x := fun z hz => h z (List.mem_cons_of_mem y hz)
    rw [List.cons_append, insert_cons_of_le _ (h y List.mem_cons_self), insert_append hys, List.cons_append]

/-- Inserting and dropping other elements commute. -/
theorem filter_insert {x : α} {p : α → Bool} (hx : p x = true) :
    ∀ {l : List α}, Sorted key l → (insert key x l).filter p = insert key x (l.filter p)
  | [], _ => by simp [insert, hx]
  | y :: ys, h => by
    have hy : ∀ z ∈ ys, key y ≤ key z := (List.pairwise_cons.1 h).1
    have hys : Sorted key ys := (List.pairwise_cons.1 h).2
    by_cases hlt : key x < key y
    · have hall : ∀ z ∈ (y :: ys).filter p, key x < key z := by
        intro z hz
        rcases List.mem_cons.1 (List.mem_filter.1 hz).1 with rfl | hz
        · exact hlt
        · exact hlt.trans_le (hy z hz)
      rw [insert_cons_of_lt ys hlt, insert_of_all_lt hall, List.filter_cons, if_pos hx]
    · rw [insert_cons_of_le ys (not_lt.1 hlt), List.filter_cons, List.filter_cons]
      by_cases hp : p y = true
      · rw [if_pos hp, if_pos hp, insert_cons_of_le _ (not_lt.1 hlt), filter_insert hx hys]
      · rw [if_neg hp, if_neg hp, filter_insert hx hys]

/-- An element that is dropped anyway may be left out. -/
theorem filter_insert_of_neg {x : α} {p : α → Bool} (hx : p x = false) :
    ∀ l : List α, (insert key x l).filter p = l.filter p
  | [] => by simp [insert, hx]
  | y :: ys => by
    simp only [insert]
    split
    · rw [List.filter_cons, if_neg (by simp [hx])]
    · rw [List.filter_cons, List.filter_cons, filter_insert_of_neg hx ys]

/-- The same for the elements that `f` keeps, when it keeps their keys. -/
theorem filterMap_insert {β : Type*} {key' : β → κ} {f : α → Option β} {x : α} {b : β} (hx : f x = some b)
    (hb : key' b = key x) : ∀ {l : List α}, Sorted key l → (∀ y ∈ l, ∀ c, f y = some c → key' c = key y) →
      (insert key x l).filterMap f = insert key' b (l.filterMap f)
  | [], _, _ => by simp [insert, hx]
  | y :: ys, h, hf => by
    have hy : ∀ z ∈ ys, key y ≤ key z := (List.pairwise_cons.1 h).1
    have hys : Sorted key ys := (List.pairwise_cons.1 h).2
    have hrest := filterMap_insert hx hb hys fun z hz => hf z (List.mem_cons_of_mem y hz)
    by_cases hlt : key x < key y
    · have hall : ∀ c ∈ (y :: ys).filterMap f, key' b < key' c := by
        intro c hc
        obtain ⟨z, hz, hzc⟩ := List.mem_filterMap.1 hc
        rw [hb, hf z hz c hzc]
        rcases List.mem_cons.1 hz with rfl | hz
        · exact hlt
        · exact hlt.trans_le (hy z hz)
      rw [insert_cons_of_lt ys hlt, insert_of_all_lt hall, List.filterMap_cons_some hx]
    · rw [insert_cons_of_le ys (not_lt.1 hlt)]
      cases hfy : f y with
      | none => rw [List.filterMap_cons_none hfy, List.filterMap_cons_none hfy, hrest]
      | some c =>
        have hle : key' c ≤ key' b := by
          rw [hf y List.mem_cons_self c hfy, hb]
          exact not_lt.1 hlt
        rw [List.filterMap_cons_some hfy, List.filterMap_cons_some hfy, insert_cons_of_le _ hle, hrest]

theorem filterMap_insert_of_none {β : Type*} {f : α → Option β} {x : α} (hx : f x = none) :
    ∀ l : List α, (insert key x l).filterMap f = l.filterMap f
  | [] => by simp [insert, hx]
  | y :: ys => by
    simp only [insert]
    split
    · rw [List.filterMap_cons_none hx]
    · cases hfy : f y with
      | none => rw [List.filterMap_cons_none hfy, List.filterMap_cons_none hfy, filterMap_insert_of_none hx ys]
      | some c => rw [List.filterMap_cons_some hfy, List.filterMap_cons_some hfy, filterMap_insert_of_none hx ys]

/-- Only the order of the keys matters. -/
theorem insert_strictMono {ν : Type*} [LinearOrder ν] {f : κ → ν} (hf : StrictMono f) (x : α) :
    ∀ l : List α, insert (fun a => f (key a)) x l = insert key x l
  | [] => rfl
  | y :: ys => by simp only [insert, hf.lt_iff_lt, insert_strictMono hf x ys]

/-- Elements are renamed, their keys stay. -/
theorem insert_map {β : Type*} {key' : β → κ} {f : α → β} (hf : ∀ a, key' (f a) = key a) (x : α) :
    ∀ l : List α, insert key' (f x) (l.map f) = (insert key x l).map f
  | [] => rfl
  | y :: ys => by
    simp only [List.map_cons, insert, hf]
    split
    · rfl
    · rw [List.map_cons, insert_map hf x ys]

end Multimap
