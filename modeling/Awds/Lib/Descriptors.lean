import Mathlib

/-!
# A table of descriptors

`table` says which object a descriptor is open on; several descriptors may be open on one object. A new object
gets the lowest descriptor that is free.
-/

structure Descriptors (σ : Type*) where
  objects : List σ
  table : List (Option Nat)
  created : ∀ i, some i ∈ table → i < objects.length

namespace Descriptors

variable {σ : Type*} {d : Descriptors σ} {fd fd' i : Nat} {v : Option Nat}

/-- What the descriptor is open on. -/
def entry (d : Descriptors σ) (fd : Nat) : Option Nat := d.table.getD fd none

def object (d : Descriptors σ) (fd : Nat) : Option σ := (d.entry fd).bind (d.objects[·]?)

/-- The lowest descriptor that is free. -/
def free (d : Descriptors σ) : Nat := d.table.idxOf none

/-- The table with another entry, longer if need be. -/
def assigned (table : List (Option Nat)) (fd : Nat) (v : Option Nat) : List (Option Nat) :=
  (table ++ List.replicate (fd + 1 - table.length) none).set fd v

theorem some_mem_assigned {table : List (Option Nat)} (h : some i ∈ assigned table fd v) : some i ∈ table ∨ v = some i := by
  rcases List.mem_or_eq_of_mem_set h with hmem | rfl
  · rcases List.mem_append.1 hmem with hmem | hmem
    · exact .inl hmem
    · cases (List.mem_replicate.1 hmem).2
  · exact .inr rfl

theorem getD_assigned (table : List (Option Nat)) (fd fd' : Nat) (v : Option Nat) :
    (assigned table fd v).getD fd' none = if fd' = fd then v else table.getD fd' none := by
  have hlen : fd < (table ++ List.replicate (fd + 1 - table.length) none).length := by
    rw [List.length_append, List.length_replicate]
    omega
  rw [assigned, List.getD_eq_getElem?_getD, List.getD_eq_getElem?_getD]
  split
  · rename_i h
    rw [h, List.getElem?_set_self hlen, Option.getD_some]
  · rename_i h
    rw [List.getElem?_set_ne (Ne.symm h)]
    rcases lt_or_ge fd' table.length with hlt | hge
    · rw [List.getElem?_append_left hlt]
    · -- behind the old table: a free descriptor in both
      rw [List.getElem?_append_right hge, List.getElem?_eq_none hge, List.getElem?_replicate]
      split
      · rfl
      · rfl

theorem entry_lt (h : d.entry fd = some i) : i < d.objects.length := by
  refine d.created i ?_
  rw [entry, List.getD_eq_getElem?_getD] at h
  rcases hget : d.table[fd]? with _ | o
  · rw [hget] at h; cases h
  · rw [hget, Option.getD_some] at h
    exact h ▸ List.mem_of_getElem? hget

/-- `fd` is closed, or opened on what is created already. -/
def assign (d : Descriptors σ) (fd : Nat) (v : Option Nat) (hv : ∀ i, v = some i → i < d.objects.length) :
    Descriptors σ where
  objects := d.objects
  table := assigned d.table fd v
  created i h := (some_mem_assigned h).elim (d.created i) (hv i)

def close (d : Descriptors σ) (fd : Nat) : Descriptors σ := d.assign fd none fun _ h => nomatch h

/-- `new` is open on what `old` is; nothing happens where `old` is not open. -/
def dup2 (d : Descriptors σ) (old new : Nat) : Descriptors σ :=
  if (d.entry old).isSome then d.assign new (d.entry old) fun _ => entry_lt else d

/-- A new object, and its descriptor. -/
def create (d : Descriptors σ) (x : σ) : Nat × Descriptors σ where
  fst := d.free
  snd := {
    objects := d.objects ++ [x]
    table := assigned d.table d.free (some d.objects.length)
    created i h := by
      rw [List.length_append, List.length_singleton]
      rcases some_mem_assigned h with h | h
      · exact Nat.lt_succ_of_lt (d.created i h)
      · exact Option.some.inj h ▸ Nat.lt_succ_self _ }

/-- The object of `fd` is changed. -/
def modify (d : Descriptors σ) (fd : Nat) (f : σ → σ) : Descriptors σ :=
  match d.entry fd with
  | none => d
  | some i => { d with
      objects := d.objects.modify i f
      created := fun j h => by rw [List.length_modify]; exact d.created j h }

/-! ## What the operations do -/

theorem entry_free (d : Descriptors σ) : d.entry d.free = none := by
  rw [entry, free, List.getD_eq_getElem?_getD]
  rcases lt_or_ge (d.table.idxOf none) d.table.length with hlt | hge
  · rw [List.getElem?_eq_getElem hlt, List.getElem_idxOf hlt, Option.getD_some]
  · rw [List.getElem?_eq_none hge, Option.getD_none]

theorem ne_free (h : d.entry fd = some i) : fd ≠ d.free := by
  rintro rfl
  rw [entry_free] at h
  cases h

@[simp] theorem entry_assign (hv) : (d.assign fd v hv).entry fd' = if fd' = fd then v else d.entry fd' :=
  getD_assigned d.table fd fd' v

theorem object_close_of_ne (h : fd' ≠ fd) : (d.close fd).object fd' = d.object fd' := by
  rw [object, close, entry_assign, if_neg h]
  rfl

theorem object_dup2 {old new : Nat} (h : (d.entry old).isSome) : (d.dup2 old new).object new = d.object old := by
  rw [dup2, if_pos h, object, entry_assign, if_pos rfl]
  rfl

theorem entry_create (x : σ) : (d.create x).2.entry fd = if fd = (d.create x).1 then some d.objects.length else d.entry fd :=
  getD_assigned d.table d.free fd _

theorem object_create (x : σ) : (d.create x).2.object (d.create x).1 = some x := by
  rw [object, entry_create, if_pos rfl, Option.bind_some]
  exact List.getElem?_concat_length

theorem object_modify (fd : Nat) (f : σ → σ) : (d.modify fd f).object fd = (d.object fd).map f := by
  rw [modify]
  split
  · rename_i h
    rw [object, h]
    rfl
  · rename_i i h
    have hentry : ∀ hc, entry ⟨d.objects.modify i f, d.table, hc⟩ fd = some i := fun _ => h
    rw [object, hentry, object, h, Option.bind_some, Option.bind_some, List.getElem?_modify_eq]
    rfl

end Descriptors
