import Awds.Lib.Allocator
import Awds.Lib.Run

/-!
# The objects behind the handles: `ApiIface`

| here | there |
| --- | --- |
| `Object`                  | `ShadowHandle`, `ShadowDepend`, `ShadowUdpHandle` |
| `Handle`                  | a `Blocker`, `DependHandle` or `UdpHandle` |
| `createShadowHandle`, `destroyShadowHandle`   | `ShadowHandle.cc:7` |
| `createSubBlocker`, `destroySubBlocker`       | `ShadowBlocker.cc:8` |
| `createSubDepend`         | `ShadowDependHandle.cc:13` |
| `createSubUdpHandle`, `destroySubUdpHandle`   | `ShadowUdpHandle.cc:85` |
| `Handle.construct`        | `Blocker.cc:9`, `DependHandle.cc:11`, `UdpHandle.cc:76`, `Handle.cc:9` |
| `Handle.destruct`         | the destructors beside them |

`none` is a failed assertion, or a use of an object that does not exist. Nobody calls `destroySubDepend`
(`ShadowDependHandle.cc:18`). `handles_balanced`: there are the objects of the handles, and no others, until the first
`DependHandle` is destroyed.
-/

namespace Posix

namespace Lifetime

open Allocator

/-- `ShadowHandle::HandleType` -/
inductive HandleType where
  | unixFdHandle | blocker | depend | udpHandle
deriving DecidableEq

inductive Object where
  | shadowHandle (handleType : Option HandleType)
  | shadowDepend (master : Nat)
  /-- It is a `Handle` itself, and has its own `ShadowHandle`. -/
  | shadowUdpHandle (master : Nat) (shadowHandle : Option Nat)
deriving DecidableEq

inductive Kind where
  | blocker | depend | udp
deriving DecidableEq

/-- A call of `ApiIface`, with what it creates or deletes. `createSub .udp` is `createSubUdpHandle`, and so on. -/
inductive Call where
  | createShadowHandle (p : Nat)
  | destroyShadowHandle (p : Option Nat)
  | createSub (k : Kind) (made : List Nat)
  | destroySub (k : Kind) (deleted : List Nat)
deriving DecidableEq

structure Handle where
  kind : Kind
  alive : Bool
  shadowHandle : Option Nat
  /-- `subDepend` or `subUdpHandle` -/
  sub : Option Nat
  /-- what it has called so far -/
  calls : List Call
deriving DecidableEq

/-- `p->handleType = t` -/
def setType (heap : Heap Object) (p : Option Nat) (t : HandleType) : Option (Heap Object) := do
  let p ← p
  match heap.obj p with
  | some (.shadowHandle _) => heap.store p (.shadowHandle (some t))
  | _ => none

namespace Handle

def called (h : Handle) (c : Call) : Handle := { h with calls := h.calls ++ [c] }

def createShadowHandle (heap : Heap Object) (h : Handle) : Heap Object × Handle :=
  (heap.new (.shadowHandle none), { h with shadowHandle := some heap.next }.called (.createShadowHandle heap.next))

def destroyShadowHandle (heap : Heap Object) (h : Handle) : Option (Heap Object × Handle) :=
  match h.shadowHandle with
  | none => some (heap, h.called (.destroyShadowHandle none))
  | some p => do
    let heap ← heap.delete p
    some (heap, { h with shadowHandle := none }.called (.destroyShadowHandle (some p)))

def createSubBlocker (heap : Heap Object) (h : Handle) : Option (Heap Object × Handle) := do
  let heap ← setType heap h.shadowHandle .blocker
  some (heap, h.called (.createSub .blocker []))

def destroySubBlocker (heap : Heap Object) (h : Handle) : Heap Object × Handle :=
  (heap, h.called (.destroySub .blocker []))

/-- `n` is the handle's own name. -/
def createSubDepend (heap : Heap Object) (n : Nat) (h : Handle) : Option (Heap Object × Handle) := do
  let heap ← setType heap h.shadowHandle .depend
  some (heap.new (.shadowDepend n), { h with sub := some heap.next }.called (.createSub .depend [heap.next]))

def createSubUdpHandle (heap : Heap Object) (n : Nat) (h : Handle) : Option (Heap Object × Handle) := do
  let sub := heap.next
  let heap := heap.new (.shadowUdpHandle n none)
  -- the constructor `UnixFdHandle(-1, ..)`, of the `Handle` that it is
  let inner := heap.next
  let heap := heap.new (.shadowHandle none)
  let heap ← heap.store sub (.shadowUdpHandle n (some inner))
  let heap ← setType heap (some inner) .unixFdHandle
  let heap ← setType heap h.shadowHandle .udpHandle
  some (heap, { h with sub := some sub }.called (.createSub .udp [sub, inner]))

def destroySubUdpHandle (heap : Heap Object) (h : Handle) : Option (Heap Object × Handle) := do
  let sub ← h.sub
  match heap.obj sub with
  | some (.shadowUdpHandle _ inner) =>
    let inner ← inner
    let heap ← heap.delete inner
    let heap ← heap.delete sub
    some (heap, { h with sub := none }.called (.destroySub .udp [sub, inner]))
  | _ => none

def construct (heap : Heap Object) (n : Nat) (kind : Kind) : Option (Heap Object × Handle) :=
  let (heap, h) := createShadowHandle heap ⟨kind, true, none, none, []⟩
  match kind with
  | .blocker => createSubBlocker heap h
  | .depend => createSubDepend heap n h
  | .udp => createSubUdpHandle heap n h

/-- The destructor of the class, and then the one of `Handle`. That of `DependHandle` calls `createSubDepend` (:18). -/
def destruct (heap : Heap Object) (n : Nat) (h : Handle) : Option (Heap Object × Handle) := do
  let (heap, h) ←
    match h.kind with
    | .blocker => some (destroySubBlocker heap h)
    | .depend => createSubDepend heap n h
    | .udp => destroySubUdpHandle heap h
  let (heap, h) ← destroyShadowHandle heap h
  some (heap, { h with alive := false })

/-- The objects that the pointers of a handle lead to. -/
def belongs (heap : Heap Object) (h : Handle) : List Nat :=
  h.shadowHandle.toList ++
    match h.sub with
    | none => []
    | some p =>
      match heap.obj p with
      | some (.shadowUdpHandle _ inner) => p :: inner.toList
      | _ => [p]

/-- What the constructor has created is destroyed by the destructor, once: first what `createSub` has made, and then
the `ShadowHandle`. -/
def Paired (h : Handle) : Prop :=
  ∃ p objs, h.calls = [.createShadowHandle p, .createSub h.kind objs] ++
    if h.alive then [] else [.destroySub h.kind objs, .destroyShadowHandle (some p)]

end Handle

structure State where
  heap : Heap Object
  handles : Nat → Option Handle

inductive Op where
  | construct (n : Nat) (kind : Kind)
  | destruct (n : Nat)
deriving DecidableEq

namespace State

def init : State := ⟨.empty, fun _ => none⟩

def step (s : State) : Op → Option State
  | .construct n kind => do
    let (heap, h) ← Handle.construct s.heap n kind
    some ⟨heap, Function.update s.handles n (some h)⟩
  | .destruct n => do
    let h ← s.handles n
    let (heap, h) ← h.destruct s.heap n
    some ⟨heap, Function.update s.handles n (some h)⟩

/-- A handle is constructed once, and is destroyed while it is alive. -/
def Possible (s : State) : Op → Prop
  | .construct n _ => s.handles n = none
  | .destruct n => (s.handles n).any Handle.alive = true

instance (s : State) : (op : Op) → Decidable (s.Possible op)
  | .construct n _ => inferInstanceAs (Decidable (s.handles n = none))
  | .destruct _ => inferInstanceAs (Decidable (_ = true))

/-- There are the objects of the handles that are alive, and no others. -/
structure Balanced (s : State) : Prop where
  objects : ∀ p, s.heap.obj p ≠ none ↔ ∃ n h, s.handles n = some h ∧ h.alive = true ∧ p ∈ h.belongs s.heap
  paired : ∀ n h, s.handles n = some h → h.Paired

end State

/-! ## One handle -/

/-- The life of a handle, and the objects that exist for it. -/
inductive Lived (heap : Heap Object) : Handle → List Nat → Prop where
  | blocker {p : Nat} {t : Option HandleType} (hp : heap.obj p = some (.shadowHandle t)) :
      Lived heap ⟨.blocker, true, some p, none, [.createShadowHandle p, .createSub .blocker []]⟩ [p]
  | depend {p d n : Nat} {t : Option HandleType} (hp : heap.obj p = some (.shadowHandle t))
      (hd : heap.obj d = some (.shadowDepend n)) (hne : p ≠ d) :
      Lived heap ⟨.depend, true, some p, some d, [.createShadowHandle p, .createSub .depend [d]]⟩ [p, d]
  | udp {p u i n : Nat} {t t' : Option HandleType} (hp : heap.obj p = some (.shadowHandle t))
      (hu : heap.obj u = some (.shadowUdpHandle n (some i))) (hi : heap.obj i = some (.shadowHandle t')) (hne : p ≠ i) :
      Lived heap ⟨.udp, true, some p, some u, [.createShadowHandle p, .createSub .udp [u, i]]⟩ [p, u, i]
  | blockerGone {p : Nat} :
      Lived heap ⟨.blocker, false, none, none,
        [.createShadowHandle p, .createSub .blocker [], .destroySub .blocker [], .destroyShadowHandle (some p)]⟩ []
  /-- Its `ShadowDepend` is left, and a second one. -/
  | dependGone {p d d' n n' : Nat} (hd : heap.obj d = some (.shadowDepend n)) (hd' : heap.obj d' = some (.shadowDepend n')) :
      Lived heap ⟨.depend, false, none, some d',
        [.createShadowHandle p, .createSub .depend [d], .createSub .depend [d'], .destroyShadowHandle (some p)]⟩ [d, d']
  | udpGone {p u i : Nat} :
      Lived heap ⟨.udp, false, none, none,
        [.createShadowHandle p, .createSub .udp [u, i], .destroySub .udp [u, i], .destroyShadowHandle (some p)]⟩ []

section Lived

variable {heap heap' : Heap Object} {h : Handle} {objs : List Nat}

theorem Lived.allocated (hl : Lived heap h objs) {p : Nat} (hp : p ∈ objs) : heap.obj p ≠ none := by
  have hne : ∀ {q : Nat} {x : Object}, heap.obj q = some x → heap.obj q ≠ none := by
    intro q x hq
    rw [hq]
    exact Option.some_ne_none x
  cases hl with
  | blocker h₁ =>
    rw [List.mem_singleton.1 hp]
    exact hne h₁
  | depend h₁ h₂ _ | dependGone h₁ h₂ =>
    simp only [List.mem_cons, List.not_mem_nil, or_false] at hp
    rcases hp with rfl | rfl
    exacts [hne h₁, hne h₂]
  | udp h₁ h₂ h₃ _ =>
    simp only [List.mem_cons, List.not_mem_nil, or_false] at hp
    rcases hp with rfl | rfl | rfl
    exacts [hne h₁, hne h₂, hne h₃]
  | blockerGone | udpGone => cases hp

/-- Other objects do not matter. -/
theorem Lived.frame (hl : Lived heap h objs) (hsame : ∀ p ∈ objs, heap'.obj p = heap.obj p) : Lived heap' h objs := by
  cases hl with
  | blocker hp => exact .blocker ((hsame _ (by simp)).trans hp)
  | depend hp hd hne => exact .depend ((hsame _ (by simp)).trans hp) ((hsame _ (by simp)).trans hd) hne
  | udp hp hu hi hne =>
    exact .udp ((hsame _ (by simp)).trans hp) ((hsame _ (by simp)).trans hu) ((hsame _ (by simp)).trans hi) hne
  | blockerGone => exact .blockerGone
  | dependGone hd hd' => exact .dependGone ((hsame _ (by simp)).trans hd) ((hsame _ (by simp)).trans hd')
  | udpGone => exact .udpGone

/-- What exists for a handle that is alive is what its pointers lead to. -/
theorem Lived.belongs (hl : Lived heap h objs) (ha : h.alive = true) : h.belongs heap = objs := by
  cases hl with
  | blocker hp => rfl
  | depend hp hd hne => simp [Handle.belongs, hd]
  | udp hp hu hi hne => simp [Handle.belongs, hu]
  | blockerGone | dependGone | udpGone => cases ha

theorem Lived.paired_iff (hl : Lived heap h objs) : h.Paired ↔ (h.kind = .depend → h.alive = true) := by
  cases hl with
  | blocker hp => exact iff_of_true ⟨_, _, rfl⟩ fun _ => rfl
  | depend hp hd hne => exact iff_of_true ⟨_, _, rfl⟩ fun _ => rfl
  | udp hp hu hi hne => exact iff_of_true ⟨_, _, rfl⟩ fun _ => rfl
  | blockerGone => exact iff_of_true ⟨_, _, rfl⟩ nofun
  | udpGone => exact iff_of_true ⟨_, _, rfl⟩ nofun
  | dependGone hd hd' =>
    refine iff_of_false ?_ fun hall => nomatch hall rfl
    rintro ⟨p, objs, hcalls⟩
    simp at hcalls

/-- Nothing is left of other handles than a `DependHandle`. -/
theorem Lived.alive (hl : Lived heap h objs) (hdepend : h.kind = .depend → h.alive = true) {p : Nat} (hp : p ∈ objs) :
    h.alive = true := by
  cases hl with
  | blocker | depend | udp => rfl
  | dependGone => exact hdepend rfl
  | blockerGone | udpGone => cases hp

theorem setType_some {p : Nat} {t : Option HandleType} (hp : heap.obj p = some (.shadowHandle t)) (t' : HandleType) :
    ∃ heap', setType heap (some p) t' = some heap' ∧ heap'.next = heap.next ∧
      heap'.obj = Function.update heap.obj p (some (.shadowHandle (some t'))) := by
  obtain ⟨heap', hstore, hnext, hobj⟩ := heap.store_some hp (.shadowHandle (some t'))
  exact ⟨heap', by simp [setType, hp, hstore], hnext, hobj⟩

theorem construct_blocker (heap : Heap Object) (n : Nat) : ∃ heap' h, Handle.construct heap n .blocker = some (heap', h) ∧
    Lived heap' h [heap.next] ∧ ∀ p, p ∉ [heap.next] → heap'.obj p = heap.obj p := by
  obtain ⟨heap', htype, hnext, hobj⟩ := setType_some (heap.new_self (.shadowHandle none)) .blocker
  refine ⟨heap', ⟨.blocker, true, some heap.next, none, [.createShadowHandle heap.next, .createSub .blocker []]⟩, ?_, ?_, ?_⟩
  · simp only [Handle.construct, Handle.createShadowHandle, Handle.createSubBlocker, Handle.called, htype]
    rfl
  · refine .blocker (t := some .blocker) ?_
    rw [hobj, Function.update_self]
  · intro p hp
    rw [List.mem_singleton] at hp
    rw [hobj, Function.update_of_ne hp, Heap.new_of_ne hp]

theorem construct_depend (heap : Heap Object) (n : Nat) : ∃ heap' h, Handle.construct heap n .depend = some (heap', h) ∧
    Lived heap' h [heap.next, heap.next + 1] ∧ ∀ p, p ∉ [heap.next, heap.next + 1] → heap'.obj p = heap.obj p := by
  obtain ⟨heap', htype, hnext, hobj⟩ := setType_some (heap.new_self (.shadowHandle none)) .depend
  rw [Heap.new_next] at hnext
  refine ⟨heap'.new (.shadowDepend n), ⟨.depend, true, some heap.next, some heap'.next,
    [.createShadowHandle heap.next, .createSub .depend [heap'.next]]⟩, ?_, ?_, ?_⟩
  · simp only [Handle.construct, Handle.createShadowHandle, Handle.createSubDepend, Handle.called, htype]
    rfl
  · rw [← hnext]
    refine .depend (t := some .depend) ?_ (heap'.new_self _) (by omega)
    rw [Heap.new_of_ne (by omega), hobj, Function.update_self]
  · intro p hp
    simp only [List.mem_cons, List.not_mem_nil, or_false, not_or] at hp
    rw [Heap.new_of_ne (by omega), hobj, Function.update_of_ne hp.1, Heap.new_of_ne hp.1]

theorem construct_udp (heap : Heap Object) (n : Nat) : ∃ heap' h, Handle.construct heap n .udp = some (heap', h) ∧
    Lived heap' h [heap.next, heap.next + 1, heap.next + 2] ∧
    ∀ p, p ∉ [heap.next, heap.next + 1, heap.next + 2] → heap'.obj p = heap.obj p := by
  -- the three objects, and then the three stores
  let made := ((heap.new (.shadowHandle none)).new (.shadowUdpHandle n none)).new (.shadowHandle none)
  have hp : made.obj heap.next = some (.shadowHandle none) := by
    rw [Heap.new_of_ne (by simp only [Heap.new_next]; omega), Heap.new_of_ne (by simp), Heap.new_self]
  have hu : made.obj (heap.next + 1) = some (.shadowUdpHandle n none) := by
    rw [Heap.new_of_ne (by simp)]
    exact Heap.new_self _ _
  have hi : made.obj (heap.next + 2) = some (.shadowHandle none) := Heap.new_self _ _
  obtain ⟨heap₁, hstore, hnext₁, hobj₁⟩ := made.store_some hu (.shadowUdpHandle n (some (heap.next + 2)))
  have hi₁ : heap₁.obj (heap.next + 2) = some (.shadowHandle none) := by
    rw [hobj₁, Function.update_of_ne (by simp), hi]
  obtain ⟨heap₂, htype, hnext₂, hobj₂⟩ := setType_some hi₁ .unixFdHandle
  have hp₂ : heap₂.obj heap.next = some (.shadowHandle none) := by
    rw [hobj₂, Function.update_of_ne (by simp), hobj₁, Function.update_of_ne (by simp), hp]
  obtain ⟨heap₃, htype', hnext₃, hobj₃⟩ := setType_some hp₂ .udpHandle
  have hp₃ : heap₃.obj heap.next = some (.shadowHandle (some .udpHandle)) := by rw [hobj₃, Function.update_self]
  have hu₃ : heap₃.obj (heap.next + 1) = some (.shadowUdpHandle n (some (heap.next + 2))) := by
    rw [hobj₃, Function.update_of_ne (by simp), hobj₂, Function.update_of_ne (by simp), hobj₁, Function.update_self]
  have hi₃ : heap₃.obj (heap.next + 2) = some (.shadowHandle (some .unixFdHandle)) := by
    rw [hobj₃, Function.update_of_ne (by simp), hobj₂, Function.update_self]
  let calls := [Call.createShadowHandle heap.next, .createSub .udp [heap.next + 1, heap.next + 2]]
  refine ⟨heap₃, ⟨.udp, true, some heap.next, some (heap.next + 1), calls⟩, ?_, .udp hp₃ hu₃ hi₃ (by simp), ?_⟩
  · have hrun : Handle.construct heap n .udp =
        ((made.store (heap.next + 1) (.shadowUdpHandle n (some (heap.next + 2)))).bind fun heap' =>
          (setType heap' (some (heap.next + 2)) .unixFdHandle).bind fun heap' =>
            (setType heap' (some heap.next) .udpHandle).bind fun heap' =>
              some (heap', ⟨.udp, true, some heap.next, some (heap.next + 1), calls⟩)) := rfl
    rw [hrun, hstore, Option.bind_some, htype, Option.bind_some, htype', Option.bind_some]
  · intro q hq
    simp only [List.mem_cons, List.not_mem_nil, or_false, not_or] at hq
    obtain ⟨hqp, hqu, hqi⟩ := hq
    rw [hobj₃, Function.update_of_ne hqp, hobj₂, Function.update_of_ne hqi, hobj₁, Function.update_of_ne hqu,
      Heap.new_of_ne hqi, Heap.new_of_ne hqu, Heap.new_of_ne hqp]

/-- The objects `objs` make way for `objs'`. -/
structure Change (heap heap' : Heap Object) (objs objs' : List Nat) : Prop where
  fresh : ∀ p ∈ objs', p ∈ objs ∨ heap.obj p = none
  frame : ∀ p, p ∉ objs → p ∉ objs' → heap'.obj p = heap.obj p
  gone : ∀ p ∈ objs, p ∉ objs' → heap'.obj p = none

theorem construct_lived (heap : Heap Object) (n : Nat) (kind : Kind) : ∃ heap' h objs,
    Handle.construct heap n kind = some (heap', h) ∧ Lived heap' h objs ∧ Change heap heap' [] objs := by
  cases kind with
  | blocker =>
    obtain ⟨heap', h, hrun, hl, hframe⟩ := construct_blocker heap n
    refine ⟨heap', h, _, hrun, hl, fun p hp => ?_, fun p _ => hframe p, nofun⟩
    exact .inr (heap.fresh p (List.mem_singleton.1 hp).ge)
  | depend =>
    obtain ⟨heap', h, hrun, hl, hframe⟩ := construct_depend heap n
    refine ⟨heap', h, _, hrun, hl, fun p hp => ?_, fun p _ => hframe p, nofun⟩
    simp only [List.mem_cons, List.not_mem_nil, or_false] at hp
    exact .inr (heap.fresh p (by omega))
  | udp =>
    obtain ⟨heap', h, hrun, hl, hframe⟩ := construct_udp heap n
    refine ⟨heap', h, _, hrun, hl, fun p hp => ?_, fun p _ => hframe p, nofun⟩
    simp only [List.mem_cons, List.not_mem_nil, or_false] at hp
    exact .inr (heap.fresh p (by omega))

theorem destruct_blocker {p : Nat} {t : Option HandleType} (hp : heap.obj p = some (.shadowHandle t)) (n : Nat) :
    ∃ heap' h',
      Handle.destruct heap n ⟨.blocker, true, some p, none, [.createShadowHandle p, .createSub .blocker []]⟩ =
          some (heap', h') ∧
        Lived heap' h' [] ∧ Change heap heap' [p] [] := by
  obtain ⟨heap', hdelete, -, hobj⟩ := heap.delete_some hp
  refine ⟨heap', _, ?_, .blockerGone (p := p), nofun, fun q hq _ => ?_, fun q hq _ => ?_⟩
  · simp only [Handle.destruct, Handle.destroySubBlocker, Handle.called, Handle.destroyShadowHandle, Option.bind_eq_bind,
      Option.bind_some, hdelete]
    rfl
  · rw [hobj, Function.update_of_ne fun heq => hq (List.mem_singleton.2 heq)]
  · rw [hobj, List.mem_singleton.1 hq, Function.update_self]

/-- A second `ShadowDepend` takes the place of the first one, which is left. -/
theorem destruct_depend {p d m : Nat} {t : Option HandleType} (hp : heap.obj p = some (.shadowHandle t))
    (hd : heap.obj d = some (.shadowDepend m)) (hne : p ≠ d) (n : Nat) :
    ∃ heap' h',
      Handle.destruct heap n ⟨.depend, true, some p, some d, [.createShadowHandle p, .createSub .depend [d]]⟩ =
          some (heap', h') ∧
        Lived heap' h' [d, heap.next] ∧ Change heap heap' [p, d] [d, heap.next] := by
  obtain ⟨heap₁, htype, hnext₁, hobj₁⟩ := setType_some hp .depend
  have hlt : p < heap.next := heap.lt_next (by rw [hp]; exact Option.some_ne_none _)
  have hlt' : d < heap.next := heap.lt_next (by rw [hd]; exact Option.some_ne_none _)
  have hp₁ : (heap₁.new (.shadowDepend n)).obj p = some (.shadowHandle (some .depend)) := by
    rw [Heap.new_of_ne (by omega), hobj₁, Function.update_self]
  obtain ⟨heap₂, hdelete, -, hobj₂⟩ := (heap₁.new (.shadowDepend n)).delete_some hp₁
  have hd₂ : heap₂.obj d = some (.shadowDepend m) := by
    rw [hobj₂, Function.update_of_ne hne.symm, Heap.new_of_ne (by omega), hobj₁, Function.update_of_ne hne.symm, hd]
  have hsecond : heap₂.obj heap.next = some (.shadowDepend n) := by
    rw [hobj₂, Function.update_of_ne hlt.ne', ← hnext₁, Heap.new_self]
  refine ⟨heap₂, ⟨.depend, false, none, some heap.next,
    [.createShadowHandle p, .createSub .depend [d], .createSub .depend [heap.next], .destroyShadowHandle (some p)]⟩,
    ?_, .dependGone hd₂ hsecond, fun q hq => ?_, fun q hq hq' => ?_, fun q hq hq' => ?_⟩
  · simp only [Handle.destruct, Handle.createSubDepend, Handle.called, Handle.destroyShadowHandle, htype,
      Option.bind_eq_bind, Option.bind_some, hdelete, hnext₁]
    rfl
  · simp only [List.mem_cons, List.not_mem_nil, or_false] at hq ⊢
    rcases hq with rfl | rfl
    · exact .inl (.inr rfl)
    · exact .inr (heap.fresh _ le_rfl)
  · simp only [List.mem_cons, List.not_mem_nil, or_false, not_or] at hq hq'
    rw [hobj₂, Function.update_of_ne hq.1, Heap.new_of_ne (hnext₁ ▸ hq'.2), hobj₁, Function.update_of_ne hq.1]
  · simp only [List.mem_cons, List.not_mem_nil, or_false, not_or] at hq hq'
    rw [hobj₂, hq.resolve_right hq'.1, Function.update_self]

theorem destruct_udp {p u i m : Nat} {t t' : Option HandleType} (hp : heap.obj p = some (.shadowHandle t))
    (hu : heap.obj u = some (.shadowUdpHandle m (some i))) (hi : heap.obj i = some (.shadowHandle t')) (hne : p ≠ i)
    (n : Nat) :
    ∃ heap' h',
      Handle.destruct heap n ⟨.udp, true, some p, some u, [.createShadowHandle p, .createSub .udp [u, i]]⟩ =
          some (heap', h') ∧
        Lived heap' h' [] ∧ Change heap heap' [p, u, i] [] := by
  have hui : u ≠ i := by
    rintro rfl
    rw [hu] at hi
    cases hi
  have hpu : p ≠ u := by
    rintro rfl
    rw [hp] at hu
    cases hu
  obtain ⟨heap₁, hdelete₁, -, hobj₁⟩ := heap.delete_some hi
  have hu₁ : heap₁.obj u = some (.shadowUdpHandle m (some i)) := by rw [hobj₁, Function.update_of_ne hui, hu]
  obtain ⟨heap₂, hdelete₂, -, hobj₂⟩ := heap₁.delete_some hu₁
  have hp₂ : heap₂.obj p = some (.shadowHandle t) := by
    rw [hobj₂, Function.update_of_ne hpu, hobj₁, Function.update_of_ne hne, hp]
  obtain ⟨heap₃, hdelete₃, -, hobj₃⟩ := heap₂.delete_some hp₂
  refine ⟨heap₃, _, ?_, .udpGone (p := p) (u := u) (i := i), nofun, fun q hq _ => ?_, fun q hq _ => ?_⟩
  · simp only [Handle.destruct, Handle.destroySubUdpHandle, Handle.called, Handle.destroyShadowHandle, Option.bind_eq_bind,
      Option.bind_some, hu, hdelete₁, hdelete₂, hdelete₃]
    rfl
  · simp only [List.mem_cons, List.not_mem_nil, or_false, not_or] at hq
    rw [hobj₃, Function.update_of_ne hq.1, hobj₂, Function.update_of_ne hq.2.1, hobj₁, Function.update_of_ne hq.2.2]
  · simp only [List.mem_cons, List.not_mem_nil, or_false] at hq
    rcases hq with rfl | rfl | rfl
    · rw [hobj₃, Function.update_self]
    · rw [hobj₃, Function.update_of_ne hpu.symm, hobj₂, Function.update_self]
    · rw [hobj₃, Function.update_of_ne hne.symm, hobj₂, Function.update_of_ne hui.symm, hobj₁, Function.update_self]

theorem Lived.destruct (hl : Lived heap h objs) (ha : h.alive = true) (n : Nat) : ∃ heap' h' objs',
    h.destruct heap n = some (heap', h') ∧ Lived heap' h' objs' ∧ Change heap heap' objs objs' := by
  cases hl with
  | blocker hp =>
    obtain ⟨heap', h', hrun, hl, hchange⟩ := destruct_blocker hp n
    exact ⟨heap', h', _, hrun, hl, hchange⟩
  | depend hp hd hne =>
    obtain ⟨heap', h', hrun, hl, hchange⟩ := destruct_depend hp hd hne n
    exact ⟨heap', h', _, hrun, hl, hchange⟩
  | udp hp hu hi hne =>
    obtain ⟨heap', h', hrun, hl, hchange⟩ := destruct_udp hp hu hi hne n
    exact ⟨heap', h', _, hrun, hl, hchange⟩
  | blockerGone | dependGone | udpGone => cases ha

end Lived

/-! ## All handles -/

namespace State

/-- Every object is there for one handle. `objs n` are those for `n`. -/
structure Accounted (s : State) (objs : Nat → List Nat) : Prop where
  lived : ∀ n h, s.handles n = some h → Lived s.heap h (objs n)
  unused : ∀ n, s.handles n = none → objs n = []
  apart : ∀ n n', n ≠ n' → (objs n).Disjoint (objs n')
  owned : ∀ p, s.heap.obj p ≠ none → ∃ n, p ∈ objs n

variable {s : State} {objs : Nat → List Nat}

theorem accounted_init : Accounted init fun _ => [] :=
  ⟨nofun, fun _ _ => rfl, fun _ _ _ => List.disjoint_nil_left _, fun _ hp => absurd rfl hp⟩

theorem Accounted.allocated (ha : s.Accounted objs) {n p : Nat} (hp : p ∈ objs n) : s.heap.obj p ≠ none := by
  cases hn : s.handles n with
  | none =>
    rw [ha.unused n hn] at hp
    cases hp
  | some h => exact (ha.lived n h hn).allocated hp

/-- One handle is constructed or destroyed. -/
theorem Accounted.update (ha : s.Accounted objs) {n : Nat} {heap' : Heap Object} {h' : Handle} {objs' : List Nat}
    (hl : Lived heap' h' objs') (hc : Change s.heap heap' (objs n) objs') :
    Accounted ⟨heap', Function.update s.handles n (some h')⟩ (Function.update objs n objs') := by
  -- the objects of another handle
  have hother : ∀ m, m ≠ n → ∀ p ∈ objs m, p ∉ objs n ∧ p ∉ objs' := by
    intro m hm p hp
    have hn : p ∉ objs n := fun hn => ha.apart m n hm hp hn
    refine ⟨hn, fun hp' => ?_⟩
    rcases hc.fresh p hp' with h | h
    · exact hn h
    · exact ha.allocated hp h
  refine ⟨fun m h hm => ?_, fun m hm => ?_, fun m m' hne => ?_, fun p hp => ?_⟩
  · by_cases hmn : m = n
    · subst hmn
      simp only [Function.update_self, Option.some.injEq] at hm ⊢
      exact hm ▸ hl
    · simp only [Function.update_of_ne hmn] at hm ⊢
      exact (ha.lived m h hm).frame fun p hp => hc.frame p (hother m hmn p hp).1 (hother m hmn p hp).2
  · by_cases hmn : m = n
    · subst hmn
      simp at hm
    · simp only [Function.update_of_ne hmn] at hm ⊢
      exact ha.unused m hm
  · by_cases hmn : m = n
    · subst hmn
      rw [Function.update_self, Function.update_of_ne hne.symm]
      exact fun p hp hp' => (hother m' hne.symm p hp').2 hp
    · rw [Function.update_of_ne hmn]
      by_cases hmn' : m' = n
      · subst hmn'
        rw [Function.update_self]
        exact fun p hp => (hother m hmn p hp).2
      · rw [Function.update_of_ne hmn']
        exact ha.apart m m' hne
  · by_cases hp' : p ∈ objs'
    · exact ⟨n, by rwa [Function.update_self]⟩
    · have hn : p ∉ objs n := fun hn => hp (hc.gone p hn hp')
      simp only [hc.frame p hn hp'] at hp
      obtain ⟨m, hm⟩ := ha.owned p hp
      have hmn : m ≠ n := by
        rintro rfl
        exact hn hm
      exact ⟨m, by rwa [Function.update_of_ne hmn]⟩

/-- No operation fails, and afterwards every object is accounted for. -/
theorem Accounted.step (ha : s.Accounted objs) {op : Op} (hop : s.Possible op) :
    ∃ s' objs', s.step op = some s' ∧ Accounted s' objs' := by
  cases op with
  | construct n kind =>
    obtain ⟨heap', h, objs', hrun, hl, hc⟩ := construct_lived s.heap n kind
    rw [← ha.unused n hop] at hc
    exact ⟨_, _, by simp only [State.step, hrun, Option.bind_eq_bind, Option.bind_some], ha.update hl hc⟩
  | destruct n =>
    obtain ⟨h, hn, halive⟩ := (Option.any_eq_true _ _).1 hop
    obtain ⟨heap', h', objs', hrun, hl, hc⟩ := (ha.lived n h hn).destruct halive n
    exact ⟨_, _, by simp only [State.step, hn, hrun, Option.bind_eq_bind, Option.bind_some], ha.update hl hc⟩

/-- All is balanced unless a `DependHandle` is gone. -/
theorem Accounted.balanced_iff (ha : s.Accounted objs) :
    s.Balanced ↔ ∀ n h, s.handles n = some h → h.kind = .depend → h.alive = true := by
  constructor
  · intro hb n h hn
    exact (ha.lived n h hn).paired_iff.1 (hb.paired n h hn)
  · intro hall
    have hpaired : ∀ n h, s.handles n = some h → h.Paired := fun n h hn => (ha.lived n h hn).paired_iff.2 (hall n h hn)
    refine ⟨fun p => ⟨fun hp => ?_, ?_⟩, hpaired⟩
    · obtain ⟨n, hn⟩ := ha.owned p hp
      cases hh : s.handles n with
      | none =>
        rw [ha.unused n hh] at hn
        cases hn
      | some h =>
        have hl := ha.lived n h hh
        have halive := hl.alive (hall n h hh) hn
        exact ⟨n, h, hh, halive, by rwa [hl.belongs halive]⟩
    · rintro ⟨n, h, hn, halive, hp⟩
      rw [(ha.lived n h hn).belongs halive] at hp
      exact ha.allocated hp

/-- **After any run no operation that is possible fails, and there are exactly the objects of the handles that are
alive, each destroyed by the destructor that its constructor is paired with, as long as no `DependHandle` was
destroyed.** -/
theorem handles_balanced {s : State} (h : Lts.Reach step Possible init s) :
    (∀ op, s.Possible op → ∃ s', s.step op = some s') ∧
      (s.Balanced ↔ ∀ n h, s.handles n = some h → h.kind = .depend → h.alive = true) := by
  have hinv : ∃ objs, s.Accounted objs := by
    refine h.invariant (I := fun t => ∃ objs, t.Accounted objs) ⟨_, accounted_init⟩ fun t op u ht hop hu => ?_
    obtain ⟨objs, ha⟩ := ht
    obtain ⟨u', objs', hu', ha'⟩ := ha.step hop
    rw [hu'] at hu
    cases hu
    exact ⟨objs', ha'⟩
  obtain ⟨objs, ha⟩ := hinv
  refine ⟨fun op hop => ?_, ha.balanced_iff⟩
  obtain ⟨s', -, hs', -⟩ := ha.step hop
  exact ⟨s', hs'⟩

/-- One handle of each class, of which two are destroyed again. -/
def threeHandles : List Op := [.construct 0 .blocker, .construct 1 .udp, .construct 2 .depend, .destruct 1, .destruct 0]

theorem threeHandles_possible : (Lts.execOk step Possible init threeHandles).isSome = true := by decide

theorem handles_balanced_three :
    (∀ op, ((Lts.execOk step Possible init threeHandles).get threeHandles_possible).Possible op →
        ∃ s', ((Lts.execOk step Possible init threeHandles).get threeHandles_possible).step op = some s') ∧
      (((Lts.execOk step Possible init threeHandles).get threeHandles_possible).Balanced ↔
        ∀ n h, ((Lts.execOk step Possible init threeHandles).get threeHandles_possible).handles n = some h →
          h.kind = .depend → h.alive = true) :=
  handles_balanced (Lts.reach_get threeHandles threeHandles_possible)

/-- A `DependHandle` leaves two `ShadowDepend`. -/
def oneDepend : List Op := [.construct 0 .depend, .destruct 0]

theorem oneDepend_possible : (Lts.execOk step Possible init oneDepend).isSome = true := by decide

theorem depend_handle_leaks : ¬∀ s, Lts.Reach step Possible init s → s.Balanced := by
  intro hall
  have hb := hall _ (Lts.reach_get oneDepend oneDepend_possible)
  have hgone : ((Lts.execOk step Possible init oneDepend).get oneDepend_possible).handles 0 =
    some ⟨.depend, false, none, some 2,
      [.createShadowHandle 0, .createSub .depend [1], .createSub .depend [2], .destroyShadowHandle (some 0)]⟩ := by decide
  obtain ⟨p, objs, hcalls⟩ := hb.paired 0 _ hgone
  simp at hcalls

end State

end Lifetime

end Posix
