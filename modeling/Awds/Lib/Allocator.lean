import Mathlib

/-!
# Objects that are created and deleted

Objects are numbered as they are created. `none` is an access to, or a deletion of, what does not exist.
-/

namespace Allocator

variable {α : Type*}

structure Heap (α : Type*) where
  obj : Nat → Option α
  next : Nat
  fresh : ∀ p, next ≤ p → obj p = none

namespace Heap

def empty : Heap α := ⟨fun _ => none, 0, fun _ _ => rfl⟩

/-- The new object has the number `heap.next`. -/
def new (heap : Heap α) (x : α) : Heap α where
  obj := Function.update heap.obj heap.next (some x)
  next := heap.next + 1
  fresh p hp := by
    rw [Function.update_of_ne (by omega)]
    exact heap.fresh p (by omega)

def store (heap : Heap α) (p : Nat) (x : α) : Option (Heap α) :=
  if h : heap.obj p ≠ none then
    some {
      obj := Function.update heap.obj p (some x)
      next := heap.next
      fresh := fun q hq => by
        rw [Function.update_of_ne, heap.fresh q hq]
        rintro rfl
        exact h (heap.fresh q hq) }
  else none

def delete (heap : Heap α) (p : Nat) : Option (Heap α) :=
  if heap.obj p ≠ none then
    some {
      obj := Function.update heap.obj p none
      next := heap.next
      fresh := fun q hq => by
        by_cases h : q = p
        · rw [h, Function.update_self]
        · rw [Function.update_of_ne h, heap.fresh q hq] }
  else none

variable {heap heap' : Heap α} {p q : Nat} {x y : α}

theorem lt_next (h : heap.obj p ≠ none) : p < heap.next := by
  by_contra hge
  exact h (heap.fresh p (not_lt.1 hge))

@[simp] theorem new_next (heap : Heap α) (x : α) : (heap.new x).next = heap.next + 1 := rfl

@[simp] theorem new_self (heap : Heap α) (x : α) : (heap.new x).obj heap.next = some x := Function.update_self _ _ _

theorem new_of_ne (hp : p ≠ heap.next) (x : α) : (heap.new x).obj p = heap.obj p := Function.update_of_ne hp _ _

theorem store_some (h : heap.obj p = some x) (y : α) : ∃ heap', heap.store p y = some heap' ∧
    heap'.next = heap.next ∧ heap'.obj = Function.update heap.obj p (some y) :=
  ⟨_, dif_pos (by simp [h]), rfl, rfl⟩

theorem delete_some (h : heap.obj p = some x) : ∃ heap', heap.delete p = some heap' ∧
    heap'.next = heap.next ∧ heap'.obj = Function.update heap.obj p none :=
  ⟨_, if_pos (by simp [h]), rfl, rfl⟩

end Heap

end Allocator
