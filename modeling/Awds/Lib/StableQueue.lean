import Awds.Lib.Multimap

/-!
# Implementations of a stable queue

A queue holds elements with a `key`; equal keys are served in the order of their insertion. Elements
carry a number `num` that grows from one insertion to the next, and a `name` to look them up by. `Impl`
has the operations of an implementation. `Refines` says that they do what they do on a plain list in key
order: one obligation for each operation. `cap` bounds the insertions an implementation is good for,
`ok` the elements.
-/

namespace StableQueue

variable {α σ κ ν μ : Type*}

/-- The operations. `cancel` is `none` where the code gives up. -/
structure Impl (α μ σ : Type*) where
  init : σ
  insert : α → σ → σ
  cancel : α → σ → Option σ
  deque : σ → Option (α × σ)
  head : σ → Option α × σ
  lookup : μ → σ → Option α

section

variable [LinearOrder κ] [LinearOrder ν] (key : α → κ) (num : α → ν) (name : α → μ)

def rank (a : α) : κ ×ₗ ν := toLex (key a, num a)

/-- In the order of (key, number); numbers are distinct. -/
structure Stable (l : List α) : Prop where
  sorted : l.Pairwise (rank key num · < rank key num ·)
  distinct : (l.map num).Nodup

/-- No other element of the list has the name. -/
def Unique (l : List α) (u : μ) : Prop := ∀ a ∈ l, ∀ b ∈ l, name a = u → name b = u → a = b

variable [DecidableEq α] [DecidableEq μ]

/-- `Q` does what the list does. `R n s l`: after `n` insertions the state `s` holds the list `l`. -/
structure Refines (Q : Impl α μ σ) (ok : α → Prop) (cap : ℕ) (R : ℕ → σ → List α → Prop) : Prop where
  init : R 0 Q.init []
  insert : ∀ {n s l e}, R n s l → Stable key num l → ok e → (∀ y ∈ l, num y < num e) → n < cap →
    R (n + 1) (Q.insert e s) (Multimap.insert key e l)
  cancel : ∀ {n s l e}, R n s l → Stable key num l → e ∈ l → ∃ s', Q.cancel e s = some s' ∧ R n s' (l.erase e)
  deque_nil : ∀ {n s}, R n s [] → Q.deque s = none
  deque_cons : ∀ {n s e l}, R n s (e :: l) → Stable key num (e :: l) → ∃ s', Q.deque s = some (e, s') ∧ R n s' l
  head : ∀ {n s l}, R n s l → Stable key num l → (Q.head s).1 = l.head? ∧ R n (Q.head s).2 l
  lookup : ∀ {n s l u}, R n s l → Stable key num l → Unique name l u → Q.lookup u s = l.find? (name · = u)

end

section

variable [LinearOrder κ] [LinearOrder ν] {key : α → κ} {num : α → ν} {l : List α} {e : α}

theorem rank_lt {a b : α} : rank key num a < rank key num b ↔ key a < key b ∨ key a = key b ∧ num a < num b :=
  Prod.Lex.toLex_lt_toLex

theorem Stable.nil : Stable key num ([] : List α) := ⟨List.Pairwise.nil, List.nodup_nil⟩

theorem Stable.tail (h : Stable key num (e :: l)) : Stable key num l :=
  ⟨(List.pairwise_cons.1 h.sorted).2, (List.nodup_cons.1 h.distinct).2⟩

theorem Stable.sublist {l' : List α} (h : Stable key num l) (hs : l'.Sublist l) : Stable key num l' :=
  ⟨h.sorted.sublist hs, h.distinct.sublist (hs.map num)⟩

theorem Stable.nodup (h : Stable key num l) : l.Nodup := h.distinct.of_map

/-- The first element ranks before all others. -/
theorem Stable.head_lt (h : Stable key num (e :: l)) : ∀ y ∈ l, rank key num e < rank key num y :=
  (List.pairwise_cons.1 h.sorted).1

theorem Stable.multimap (h : Stable key num l) : Multimap.Sorted key l := by
  refine h.sorted.imp fun {a b} hab => ?_
  rcases rank_lt.1 hab with hlt | ⟨heq, -⟩
  · exact hlt.le
  · exact heq.le

theorem Stable.insert (h : Stable key num l) (hnew : ∀ y ∈ l, num y < num e) :
    Stable key num (Multimap.insert key e l) := by
  refine ⟨Multimap.stable_insert h.sorted hnew, ?_⟩
  rw [((Multimap.insert_perm key e l).map num).nodup_iff, List.map_cons, List.nodup_cons]
  refine ⟨fun hmem => ?_, h.distinct⟩
  obtain ⟨y, hy, heq⟩ := List.mem_map.1 hmem
  exact (hnew y hy).ne heq

theorem Stable.erase [DecidableEq α] (h : Stable key num l) (e : α) : Stable key num (l.erase e) :=
  h.sublist List.erase_sublist

/-- A lookup by a name that one element has does not depend on the order of the elements. -/
theorem Unique.find?_of_perm [DecidableEq μ] {name : α → μ} {u : μ} {l' : List α} (h : Unique name l u) (hp : l'.Perm l) :
    l'.find? (name · = u) = l.find? (name · = u) := by
  cases hl : l.find? (name · = u) with
  | none =>
    rw [List.find?_eq_none] at hl ⊢
    exact fun x hx => hl x (hp.mem_iff.1 hx)
  | some a =>
    have ha : a ∈ l := List.mem_of_find?_eq_some hl
    have hau : name a = u := by simpa using List.find?_some hl
    cases hl' : l'.find? (name · = u) with
    | none =>
      rw [List.find?_eq_none] at hl'
      exact absurd (by simpa using hau) (hl' a (hp.mem_iff.2 ha))
    | some b =>
      have hb : b ∈ l := hp.mem_iff.1 (List.mem_of_find?_eq_some hl')
      have hbu : name b = u := by simpa using List.find?_some hl'
      rw [h a ha b hb hau hbu]

/-- Two lists in order with the same elements are equal. -/
theorem Stable.eq_of_perm {l' : List α} (h : Stable key num l) (h' : Stable key num l') (hp : l.Perm l') : l = l' :=
  hp.eq_of_pairwise' (r := (rank key num · < rank key num ·)) h.sorted h'.sorted

theorem Refines.restrict [DecidableEq α] [DecidableEq μ] {name : α → μ} {Q : Impl α μ σ} {ok ok' : α → Prop} {cap : ℕ}
    {R : ℕ → σ → List α → Prop} (h : Refines key num name Q ok cap R) (hok : ∀ e, ok' e → ok e) :
    Refines key num name Q ok' cap R :=
  { h with insert := fun hr hs he hnew hn => h.insert hr hs (hok _ he) hnew hn }

end

end StableQueue
