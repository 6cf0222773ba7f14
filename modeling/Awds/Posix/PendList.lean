import Awds.Gea.Basic
import Awds.Lib.LinkedList
import Awds.Lib.Run

/-!
# The lists of pending events: `ShadowDepend::PendList`

| here | there |
| --- | --- |
| `PendEvent`       | `PendEvent` (`ShadowDependHandle.h:21`), without `next` |
| `PendList`        | the members of `PendList` (:29) |
| `Memory.append`   | `append` (:45); `new` answers `p` |
| `Memory.pop`      | `pop` (:78) |
| `Memory.moveTo`   | `moveTo` (:66) |

`heap` are the entries in the lists: one that `pop` has returned is its caller's, who may delete it. `none` is an
access through a pointer to nothing in `heap`. `pend_lists_queues`: the lists are queues as long as nothing is moved
from an empty list to one that is not.
-/

namespace Posix

open Gea LinkedList

structure PendEvent where
  h : Handle
  e : Event
  data : Data
  t : AbsTime
deriving DecidableEq

structure PendList where
  first : Option Nat
  last : Option Nat

namespace PendList

variable {ι : Type} [DecidableEq ι]

/-- The constructor (:34). -/
def new : PendList := ⟨none, none⟩

/-- `isEmpty` (:43). -/
def isEmpty (l : PendList) : Bool := l.first.isNone

/-- Any number of lists, and what `pop` has returned of each. -/
structure Memory (ι : Type) where
  heap : Heap PendEvent
  list : ι → PendList
  popped : List (ι × Option PendEvent)

/-- `p` is the address of the new entry. -/
inductive Op (ι : Type) where
  | append (l : ι) (x : PendEvent) (p : Nat)
  | pop (l : ι)
  | moveTo (l pl : ι)

/-- `q->next = next` -/
def setNext (heap : Heap PendEvent) (q next : Option Nat) : Option (Heap PendEvent) := do
  let n ← q
  let c ← heap n
  some (Function.update heap n (some { c with next }))

namespace Memory

/-- No list has an entry. -/
def init : Memory ι := ⟨fun _ => none, fun _ => new, []⟩

def append (s : Memory ι) (l : ι) (x : PendEvent) (p : Nat) : Option (Memory ι) := do
  let heap := Function.update s.heap p (some ⟨none, x⟩)
  if (s.list l).isEmpty then some { s with heap, list := Function.update s.list l ⟨some p, some p⟩ }
  else
    let heap ← setNext heap (s.list l).last (some p)
    some { s with heap, list := Function.update s.list l { s.list l with last := some p } }

def pop (s : Memory ι) (l : ι) : Option (Memory ι) :=
  match (s.list l).first with
  | none => some { s with popped := s.popped ++ [(l, none)] }
  | some n => do
    let c ← s.heap n
    some {
      heap := Function.update s.heap n none
      list := Function.update s.list l { s.list l with first := c.next }
      popped := s.popped ++ [(l, some c.val)] }

def moveTo (s : Memory ι) (l pl : ι) : Option (Memory ι) :=
  if (s.list pl).isEmpty then
    some { s with list := Function.update (Function.update s.list pl (s.list l)) l new }
  else do
    let heap ← setNext s.heap (s.list pl).last (s.list l).first
    some { s with
      heap, list := Function.update (Function.update s.list pl { s.list pl with last := (s.list l).last }) l new }

def step (s : Memory ι) : Op ι → Option (Memory ι)
  | .append l x p => s.append l x p
  | .pop l => s.pop l
  | .moveTo l pl => s.moveTo l pl

end Memory

/-! ## Queues -/

/-- What the lists are for. -/
structure Queues (ι α : Type) where
  queue : ι → List α
  popped : List (ι × Option α)

namespace Queues

variable {α : Type}

def init : Queues ι α := ⟨fun _ => [], []⟩

def append (q : Queues ι α) (l : ι) (x : α) : Queues ι α :=
  { q with queue := Function.update q.queue l (q.queue l ++ [x]) }

def pop (q : Queues ι α) (l : ι) : Queues ι α where
  queue := Function.update q.queue l (q.queue l).tail
  popped := q.popped ++ [(l, (q.queue l).head?)]

def moveTo (q : Queues ι α) (l pl : ι) : Queues ι α :=
  { q with queue := Function.update (Function.update q.queue pl (q.queue pl ++ q.queue l)) l [] }

def step (q : Queues ι PendEvent) : Op ι → Queues ι PendEvent
  | .append l x _ => q.append l x
  | .pop l => q.pop l
  | .moveTo l pl => q.moveTo l pl

end Queues

/-- `cs` are the entries of a list with their addresses. `last` means something only if there are any. -/
structure Holds (heap : Heap PendEvent) (pl : PendList) (cs : List (Nat × PendEvent)) (queue : List PendEvent) : Prop where
  seg : Seg heap pl.first cs none
  last : ∀ c, cs.getLast? = some c → pl.last = some c.1
  queue : cs.map Prod.snd = queue
  nodup : (cs.map Prod.fst).Nodup

/-- Every list holds its queue, and no two have an entry in common. -/
structure Lists (heap : Heap PendEvent) (list : ι → PendList) (cells : ι → List (Nat × PendEvent))
    (queue : ι → List PendEvent) : Prop where
  holds : ∀ l, Holds heap (list l) (cells l) (queue l)
  apart : ∀ l l', l ≠ l' → ((cells l).map Prod.fst).Disjoint ((cells l').map Prod.fst)

structure Represents (s : Memory ι) (q : Queues ι PendEvent) (cells : ι → List (Nat × PendEvent)) : Prop where
  lists : Lists s.heap s.list cells q.queue
  owned : ∀ p, s.heap p ≠ none → ∃ l, p ∈ (cells l).map Prod.fst
  popped : s.popped = q.popped

/-- `new` returns an address that is not in use. -/
def Fresh (s : Memory ι) : Op ι → Prop
  | .append _ _ p => s.heap p = none
  | _ => True

/-- Where `moveTo` has a target that is not empty, it has another list with entries to move to it. -/
def Sound (s : Memory ι) : Op ι → Prop
  | .moveTo l pl => (s.list pl).isEmpty = true ∨ (s.list l).isEmpty = false ∧ l ≠ pl
  | _ => True

/-! ## One list -/

section Holds

variable {heap heap' : Heap PendEvent} {pl : PendList} {cs : List (Nat × PendEvent)} {queue : List PendEvent}

theorem Holds.frame (h : Holds heap pl cs queue) (hsame : ∀ p ∈ cs.map Prod.fst, heap' p = heap p) :
    Holds heap' pl cs queue :=
  { h with seg := h.seg.frame fun _ hc => hsame _ (List.mem_map_of_mem hc) }

theorem Holds.update (h : Holds heap pl cs queue) {n : Nat} (hn : n ∉ cs.map Prod.fst)
    (cell : Option (LinkedList.Cell PendEvent)) : Holds (Function.update heap n cell) pl cs queue :=
  { h with seg := h.seg.update hn cell }

theorem holds_new : Holds heap new [] [] :=
  ⟨rfl, (by simp), rfl, List.nodup_nil⟩

theorem Holds.isEmpty_iff (h : Holds heap pl cs queue) : pl.isEmpty = true ↔ cs = [] := by
  rw [h.seg.eq_nil_iff, isEmpty, Option.isNone_iff_eq_none]

theorem Holds.allocated (h : Holds heap pl cs queue) {p : Nat} (hp : p ∈ cs.map Prod.fst) : heap p ≠ none := by
  obtain ⟨c, hc, rfl⟩ := List.mem_map.1 hp
  obtain ⟨next, hn⟩ := h.seg.allocated hc
  rw [hn]
  exact Option.some_ne_none _

/-- A list goes on with another one: `last->next = first`. -/
theorem Holds.link {pl' : PendList} {ds : List (Nat × PendEvent)} {queue' : List PendEvent}
    (h : Holds heap pl cs queue) (h' : Holds heap pl' ds queue') (hcs : cs ≠ []) (hds : ds ≠ [])
    (hapart : (cs.map Prod.fst).Disjoint (ds.map Prod.fst)) :
    ∃ heap', setNext heap pl.last pl'.first = some heap' ∧ (∀ p, p ∉ cs.map Prod.fst → heap' p = heap p) ∧
      Holds heap' ⟨pl.first, pl'.last⟩ (cs ++ ds) (queue ++ queue') := by
  obtain ⟨cs, ⟨n, x⟩, rfl⟩ := (List.eq_nil_or_concat' cs).resolve_left hcs
  have hlast := h.last (n, x) (by simp)
  obtain ⟨next, hn⟩ := h.seg.allocated (c := (n, x)) (by simp)
  have hnodup := h.nodup
  rw [List.map_append, List.map_singleton, List.nodup_append] at hnodup
  have hmem : n ∈ (cs ++ [(n, x)]).map Prod.fst := by simp
  refine ⟨Function.update heap n (some ⟨pl'.first, x⟩), by simp [setNext, hlast, hn], fun p hp => ?_, ?_, ?_, ?_, ?_⟩
  · exact Function.update_of_ne (ne_of_mem_of_not_mem hmem hp).symm _ _
  · refine seg_append.2 ⟨pl'.first, h.seg.relink (fun hn' => ?_) _, h'.seg.update (hapart hmem) _⟩
    exact hnodup.2.2 n hn' n List.mem_cons_self rfl
  · intro c hc
    rw [List.getLast?_append_of_ne_nil _ hds] at hc
    exact h'.last c hc
  · rw [List.map_append, h.queue, h'.queue]
  · rw [List.map_append]
    exact List.nodup_append.2 ⟨h.nodup, h'.nodup, fun a ha b hb heq => hapart ha (heq ▸ hb)⟩

end Holds

/-! ## All lists -/

section Lists

variable {heap heap' : Heap PendEvent} {list : ι → PendList} {cells : ι → List (Nat × PendEvent)}
  {queue : ι → List PendEvent}

/-- One list is changed, and the others do not notice. -/
theorem Lists.update (h : Lists heap list cells queue) {l : ι} {pl : PendList} {cs : List (Nat × PendEvent)}
    {xs : List PendEvent} (hl : Holds heap' pl cs xs)
    (hsame : ∀ l', l' ≠ l → ∀ p ∈ (cells l').map Prod.fst, heap' p = heap p)
    (hapart : ∀ l', l' ≠ l → (cs.map Prod.fst).Disjoint ((cells l').map Prod.fst)) :
    Lists heap' (Function.update list l pl) (Function.update cells l cs) (Function.update queue l xs) := by
  refine ⟨fun l' => ?_, fun l₁ l₂ hne => ?_⟩
  · by_cases hl' : l' = l
    · subst hl'
      simpa only [Function.update_self] using hl
    · simp only [Function.update_of_ne hl']
      exact (h.holds l').frame (hsame l' hl')
  · by_cases h₁ : l₁ = l
    · subst h₁
      rw [Function.update_self, Function.update_of_ne hne.symm]
      exact hapart l₂ hne.symm
    · rw [Function.update_of_ne h₁]
      by_cases h₂ : l₂ = l
      · subst h₂
        rw [Function.update_self]
        exact (hapart l₁ h₁).symm
      · rw [Function.update_of_ne h₂]
        exact h.apart l₁ l₂ hne

/-- What is in a list after `l` was emptied was there before. -/
theorem mem_emptied {l l' : ι} {n : Nat} (hn : n ∈ (Function.update cells l [] l').map Prod.fst) :
    l' ≠ l ∧ n ∈ (cells l').map Prod.fst := by
  by_cases hl' : l' = l
  · subst hl'
    simp at hn
  · rw [Function.update_of_ne hl'] at hn
    exact ⟨hl', hn⟩

/-- One list is emptied, and another one has its entries. -/
theorem Lists.moveTo (h : Lists heap list cells queue) {l pl : ι} (hne : l ≠ pl) {pl' : PendList}
    (hholds : Holds heap' pl' (cells pl ++ cells l) (queue pl ++ queue l))
    (hsame : ∀ n, n ∉ (cells pl).map Prod.fst → heap' n = heap n) :
    Lists heap' (Function.update (Function.update list pl pl') l new)
      (Function.update (Function.update cells pl (cells pl ++ cells l)) l [])
      (Function.update (Function.update queue pl (queue pl ++ queue l)) l []) := by
  have hemptied : Lists heap (Function.update list l new) (Function.update cells l []) (Function.update queue l []) :=
    h.update holds_new (fun _ _ _ _ => rfl) fun _ _ => List.disjoint_nil_left _
  rw [Function.update_comm (Ne.symm hne), Function.update_comm (Ne.symm hne), Function.update_comm (Ne.symm hne)]
  refine hemptied.update hholds (fun l' hl' n hn => ?_) fun l' hl' n hn hn' => ?_
  · have hmem := (mem_emptied hn).2
    exact hsame n fun hn' => h.apart l' pl hl' hmem hn'
  · obtain ⟨hl, hmem⟩ := mem_emptied hn'
    rw [List.map_append, List.mem_append] at hn
    rcases hn with hn | hn
    · exact h.apart pl l' hl'.symm hn hmem
    · exact h.apart l l' hl.symm hn hmem

end Lists

/-! ## The operations -/

variable {s s' : Memory ι} {q : Queues ι PendEvent} {cells : ι → List (Nat × PendEvent)}

/-- What `append` leaves of its list. -/
theorem Represents.append_holds (h : Represents s q cells) (l : ι) (x : PendEvent) {p : Nat} (hp : s.heap p = none) :
    ∃ heap' pl, s.append l x p = some { s with heap := heap', list := Function.update s.list l pl } ∧
      Holds heap' pl (cells l ++ [(p, x)]) (q.queue l ++ [x]) ∧
      ∀ n, n ∉ (cells l ++ [(p, x)]).map Prod.fst → heap' n = s.heap n := by
  have hfresh : p ∉ (cells l).map Prod.fst := fun hmem => (h.lists.holds l).allocated hmem hp
  have hold : Holds (Function.update s.heap p (some ⟨none, x⟩)) (s.list l) (cells l) (q.queue l) :=
    (h.lists.holds l).update hfresh _
  have hmem : p ∈ (cells l ++ [(p, x)]).map Prod.fst := by simp
  have hnew : Holds (Function.update s.heap p (some ⟨none, x⟩)) ⟨some p, some p⟩ [(p, x)] [x] :=
    ⟨seg_singleton.2 ⟨rfl, Function.update_self _ _ _⟩, (by simp), rfl, List.nodup_singleton p⟩
  by_cases hempty : (s.list l).isEmpty = true
  · have hnil := hold.isEmpty_iff.1 hempty
    refine ⟨Function.update s.heap p (some ⟨none, x⟩), ⟨some p, some p⟩, by simp [Memory.append, hempty], ?_, ?_⟩
    · rw [← hold.queue, hnil]
      exact hnew
    · intro n hn
      exact Function.update_of_ne (ne_of_mem_of_not_mem hmem hn).symm _ _
  · have hne : cells l ≠ [] := fun hnil => hempty (hold.isEmpty_iff.2 hnil)
    obtain ⟨heap', hnext, hsame, hholds⟩ := hold.link hnew hne (List.cons_ne_nil _ _) (List.disjoint_singleton.2 hfresh)
    refine ⟨heap', ⟨(s.list l).first, some p⟩, by simp [Memory.append, hempty, hnext], hholds, fun n hn => ?_⟩
    have hkept : n ∉ (cells l).map Prod.fst := by
      rw [List.map_append, List.mem_append, not_or] at hn
      exact hn.1
    rw [hsame n hkept]
    exact Function.update_of_ne (ne_of_mem_of_not_mem hmem hn).symm _ _

/-- An operation on one list: every entry stays in its list, or it is the list's. -/
theorem Represents.update (h : Represents s q cells) {l : ι} {heap' : Heap PendEvent} {pl : PendList}
    {cs : List (Nat × PendEvent)} {xs : List PendEvent} (popped : List (ι × Option PendEvent))
    (hl : Holds heap' pl cs xs)
    (hsame : ∀ l', l' ≠ l → ∀ n ∈ (cells l').map Prod.fst, n ∉ cs.map Prod.fst ∧ heap' n = s.heap n)
    (howned : ∀ n, heap' n ≠ none → n ∈ cs.map Prod.fst ∨ s.heap n ≠ none ∧ n ∉ (cells l).map Prod.fst) :
    Represents ⟨heap', Function.update s.list l pl, popped⟩ ⟨Function.update q.queue l xs, popped⟩
      (Function.update cells l cs) := by
  refine ⟨h.lists.update hl (fun l' hne n hn => (hsame l' hne n hn).2) ?_, fun n hn => ?_, rfl⟩
  · exact fun l' hne n hn hn' => (hsame l' hne n hn').1 hn
  · rcases howned n hn with hmem | ⟨hold, hl'⟩
    · exact ⟨l, by rwa [Function.update_self]⟩
    · obtain ⟨l', hmem⟩ := h.owned n hold
      have hne : l' ≠ l := by
        rintro rfl
        exact hl' hmem
      exact ⟨l', by rwa [Function.update_of_ne hne]⟩

theorem Represents.append (h : Represents s q cells) (l : ι) (x : PendEvent) {p : Nat} (hp : s.heap p = none) :
    ∃ s', s.append l x p = some s' ∧
      Represents s' (q.append l x) (Function.update cells l (cells l ++ [(p, x)])) := by
  obtain ⟨heap', pl, hs', hholds, hsame⟩ := h.append_holds l x hp
  have hkeep : ∀ l', l' ≠ l → ∀ n ∈ (cells l').map Prod.fst,
      n ∉ (cells l ++ [(p, x)]).map Prod.fst ∧ heap' n = s.heap n := by
    intro l' hne n hn
    have hmem : n ∉ (cells l ++ [(p, x)]).map Prod.fst := by
      rw [List.map_append, List.mem_append, not_or]
      refine ⟨fun hn' => h.lists.apart l l' hne.symm hn' hn, fun hn' => ?_⟩
      rw [List.mem_singleton.1 hn'] at hn
      exact (h.lists.holds l').allocated hn hp
    exact ⟨hmem, hsame n hmem⟩
  have howned : ∀ n, heap' n ≠ none → n ∈ (cells l ++ [(p, x)]).map Prod.fst ∨
      s.heap n ≠ none ∧ n ∉ (cells l).map Prod.fst := by
    intro n hn
    by_cases hmem : n ∈ (cells l ++ [(p, x)]).map Prod.fst
    · exact .inl hmem
    · rw [hsame n hmem] at hn
      exact .inr ⟨hn, fun hn' => hmem (by rw [List.map_append]; exact List.mem_append_left _ hn')⟩
  have hrep := h.update s.popped hholds hkeep howned
  rw [h.popped] at hrep hs'
  exact ⟨_, hs', hrep⟩

theorem Represents.pop (h : Represents s q cells) (l : ι) :
    ∃ s', s.pop l = some s' ∧ Represents s' (q.pop l) (Function.update cells l (cells l).tail) := by
  have hholds := h.lists.holds l
  cases hcells : cells l with
  | nil =>
    have hfirst : (s.list l).first = none := hholds.seg.eq_nil_iff.1 hcells
    have hqueue : q.queue l = [] := by rw [← hholds.queue, hcells, List.map_nil]
    refine ⟨{ s with popped := s.popped ++ [(l, none)] }, by simp [Memory.pop, hfirst], ?_, ?_, ?_⟩
    · rw [Queues.pop, hqueue, List.tail_nil, List.tail_nil, ← hcells, ← hqueue, Function.update_eq_self,
        Function.update_eq_self]
      exact h.lists
    · rw [List.tail_nil, ← hcells, Function.update_eq_self]
      exact h.owned
    · rw [Queues.pop, hqueue, h.popped, List.head?_nil]
  | cons c cs =>
    obtain ⟨n, x⟩ := c
    rw [hcells] at hholds
    obtain ⟨hfirst, next, hn, hseg⟩ := hholds.seg
    have hqueue : q.queue l = x :: cs.map Prod.snd := hholds.queue.symm
    have hnodup := List.nodup_cons.1 hholds.nodup
    have hother : ∀ n', n' ≠ n → Function.update s.heap n none n' = s.heap n' := fun n' hne => Function.update_of_ne hne _ _
    have hleft : Holds (Function.update s.heap n none) ⟨next, (s.list l).last⟩ cs (cs.map Prod.snd) := by
      refine ⟨hseg.update hnodup.1 none, fun c hc => ?_, rfl, hnodup.2⟩
      exact hholds.last c (by rw [List.getLast?_cons, hc]; rfl)
    have hapart := h.lists.apart l
    rw [hcells] at hapart
    have hrep := h.update (l := l) (s.popped ++ [(l, some x)]) hleft ?_ ?_
    · refine ⟨_, by simp only [Memory.pop, hfirst, hn]; rfl, ?_⟩
      rw [Queues.pop, hqueue, ← h.popped]
      exact hrep
    · intro l' hne n' hn'
      have hdisj := hapart l' hne.symm
      refine ⟨fun hmem => hdisj (List.mem_cons_of_mem _ hmem) hn', hother n' ?_⟩
      rintro rfl
      exact hdisj List.mem_cons_self hn'
    · intro n' hn'
      have hne : n' ≠ n := by
        rintro rfl
        exact hn' (Function.update_self _ _ _)
      rw [hother n' hne] at hn'
      by_cases hmem : n' ∈ cs.map Prod.fst
      · exact .inl hmem
      · rw [hcells, List.map_cons, List.mem_cons, not_or]
        exact .inr ⟨hn', hne, hmem⟩

/-- What `moveTo` leaves of its target. -/
theorem Represents.moveTo_holds (h : Represents s q cells) {l pl : ι} (hs : Sound s (.moveTo l pl)) :
    ∃ heap' pl', s.moveTo l pl = some ⟨heap', Function.update (Function.update s.list pl pl') l new, s.popped⟩ ∧
      Holds heap' pl' (cells pl ++ cells l) (q.queue pl ++ q.queue l) ∧
      ∀ n, n ∉ (cells pl).map Prod.fst → heap' n = s.heap n := by
  have hl := h.lists.holds l
  have hpl := h.lists.holds pl
  by_cases hempty : (s.list pl).isEmpty = true
  · have hnil := hpl.isEmpty_iff.1 hempty
    have hqueue : q.queue pl = [] := by rw [← hpl.queue, hnil, List.map_nil]
    rw [hnil, hqueue]
    exact ⟨s.heap, s.list l, by simp [Memory.moveTo, hempty], hl, fun _ _ => rfl⟩
  · obtain ⟨hsome, hne⟩ := hs.resolve_left hempty
    have hcs : cells pl ≠ [] := fun hnil => hempty (hpl.isEmpty_iff.2 hnil)
    have hds : cells l ≠ [] := by
      intro hnil
      rw [hl.isEmpty_iff.2 hnil] at hsome
      cases hsome
    obtain ⟨heap', hnext, hsame, hholds⟩ := hpl.link hl hcs hds (h.lists.apart pl l hne.symm)
    exact ⟨heap', ⟨(s.list pl).first, (s.list l).last⟩, by simp [Memory.moveTo, hempty, hnext], hholds, hsame⟩

theorem Represents.moveTo (h : Represents s q cells) {l pl : ι} (hs : Sound s (.moveTo l pl)) :
    ∃ s', s.moveTo l pl = some s' ∧
      Represents s' (q.moveTo l pl) (Function.update (Function.update cells pl (cells pl ++ cells l)) l []) := by
  obtain ⟨heap', pl', hs', hholds, hsame⟩ := h.moveTo_holds hs
  refine ⟨_, hs', ?_⟩
  by_cases hne : l = pl
  · subst hne
    have hnil : cells l = [] := (h.lists.holds l).isEmpty_iff.1 (hs.resolve_right fun hcond => hcond.2 rfl)
    have hheap : heap' = s.heap := by
      ext1 n
      exact hsame n (by simp [hnil])
    have hrep := h.update (l := l) s.popped holds_new (fun _ _ n _ => ⟨List.not_mem_nil, rfl⟩)
      (fun n hn => .inr ⟨hn, by simp [hnil]⟩)
    simp only [Queues.moveTo, Function.update_idem, hheap, ← h.popped]
    exact hrep
  · refine ⟨h.lists.moveTo hne hholds hsame, fun n hn => ?_, h.popped⟩
    rw [Function.update_comm (Ne.symm hne)]
    by_cases hmem : n ∈ (cells pl ++ cells l).map Prod.fst
    · exact ⟨pl, by rwa [Function.update_self]⟩
    · rw [List.map_append, List.mem_append, not_or] at hmem
      have hold : s.heap n ≠ none := hsame n hmem.1 ▸ hn
      obtain ⟨l', hl'⟩ := h.owned n hold
      have hl : l' ≠ l := by
        rintro rfl
        exact hmem.2 hl'
      have hpl : l' ≠ pl := by
        rintro rfl
        exact hmem.1 hl'
      exact ⟨l', by rwa [Function.update_of_ne hpl, Function.update_of_ne hl]⟩

/-! ## Runs -/

def Ok (s : Memory ι × Queues ι PendEvent) (op : Op ι) : Prop := Fresh s.1 op ∧ Sound s.1 op

instance (s : Memory ι) : (op : Op ι) → Decidable (Fresh s op)
  | .append _ _ p => inferInstanceAs (Decidable (s.heap p = none))
  | .pop _ | .moveTo _ _ => isTrue trivial

instance (s : Memory ι) : (op : Op ι) → Decidable (Sound s op)
  | .moveTo _ _ => inferInstanceAs (Decidable (_ ∨ _ ∧ _))
  | .pop _ | .append _ _ _ => isTrue trivial

instance (s : Memory ι × Queues ι PendEvent) (op : Op ι) : Decidable (Ok s op) := inferInstanceAs (Decidable (_ ∧ _))

/-- The lists and the queues, side by side. -/
def both (s : Memory ι × Queues ι PendEvent) (op : Op ι) : Option (Memory ι × Queues ι PendEvent) :=
  (s.1.step op).map fun s' => (s', s.2.step op)

/-- Every operation does to the lists what it does to the queues. -/
theorem Represents.step (h : Represents s q cells) (op : Op ι) (hok : Ok (s, q) op) :
    ∃ s' cells', s.step op = some s' ∧ Represents s' (q.step op) cells' := by
  cases op with
  | append l x p =>
    obtain ⟨s', hs', hrep⟩ := h.append l x hok.1
    exact ⟨s', _, hs', hrep⟩
  | pop l =>
    obtain ⟨s', hs', hrep⟩ := h.pop l
    exact ⟨s', _, hs', hrep⟩
  | moveTo l pl =>
    obtain ⟨s', hs', hrep⟩ := h.moveTo hok.2
    exact ⟨s', _, hs', hrep⟩

omit [DecidableEq ι] in
theorem represents_init : Represents (Memory.init : Memory ι) Queues.init fun _ => [] :=
  ⟨⟨fun _ => holds_new, fun _ _ _ => List.disjoint_nil_left _⟩, fun _ hp => absurd rfl hp, rfl⟩

/-- **The lists are queues, and no operation fails, as long as nothing is moved from an empty list to one that is
not, or from a list to itself.** -/
theorem pend_lists_queues {t : Memory ι × Queues ι PendEvent} (h : Lts.Reach both Ok (Memory.init, Queues.init) t) :
    (∃ cells, Represents t.1 t.2 cells) ∧ ∀ op, Ok t op → ∃ s', t.1.step op = some s' := by
  have hinv : ∃ cells, Represents t.1 t.2 cells := by
    refine h.invariant (I := fun t => ∃ cells, Represents t.1 t.2 cells) ⟨_, represents_init⟩ ?_
    rintro ⟨s, q⟩ op u ⟨cells, hrep⟩ hok hu
    obtain ⟨s', cells', hs', hrep'⟩ := hrep.step op hok
    rw [both, hs', Option.map_some] at hu
    cases hu
    exact ⟨cells', hrep'⟩
  refine ⟨hinv, fun op hok => ?_⟩
  obtain ⟨cells, hrep⟩ := hinv
  obtain ⟨s', -, hs', -⟩ := hrep.step op hok
  exact ⟨s', hs'⟩

/-- An event for the handle 0 at the time `t`. -/
def eventAt (t : AbsTime) : PendEvent := ⟨0, 0, 0, t⟩

/-- Two lists are joined, emptied, and used again. -/
def joinOps : List (Op Nat) :=
  [.append 0 (eventAt 1) 1, .append 1 (eventAt 2) 2, .append 1 (eventAt 3) 3, .moveTo 1 0, .pop 0, .pop 0, .pop 0, .pop 0,
    .append 1 (eventAt 4) 1, .moveTo 1 0, .pop 0]

theorem joinOps_possible : (Lts.execOk both Ok (Memory.init, Queues.init) joinOps).isSome = true := by decide

theorem pend_lists_queues_joined : ∃ cells,
    Represents ((Lts.execOk both Ok (Memory.init, Queues.init) joinOps).get joinOps_possible).1
      ((Lts.execOk both Ok (Memory.init, Queues.init) joinOps).get joinOps_possible).2 cells :=
  (pend_lists_queues (Lts.reach_get joinOps joinOps_possible)).1

/-- An empty list is moved to one with an entry: `last` is null, and the next `append` stores through it. -/
def emptyMove : List (Op Nat) := [.append 0 (eventAt 1) 1, .moveTo 1 0]

theorem emptyMove_possible :
    (Lts.execOk both (fun s => Fresh s.1) (Memory.init, Queues.init) emptyMove).isSome = true := by decide

theorem empty_move_breaks : ¬∀ t : Memory Nat × Queues Nat PendEvent,
    Lts.Reach both (fun s => Fresh s.1) (Memory.init, Queues.init) t →
      ∀ op, Fresh t.1 op → ∃ s', t.1.step op = some s' := by
  intro hall
  obtain ⟨s', hs'⟩ := hall _ (Lts.reach_get emptyMove emptyMove_possible) (.append 0 (eventAt 2) 2) (by decide)
  have hnone : ((Lts.execOk both (fun s => Fresh s.1) (Memory.init, Queues.init) emptyMove).get
      emptyMove_possible).1.step (.append 0 (eventAt 2) 2) = none := by decide
  rw [hnone] at hs'
  cases hs'

end PendList

end Posix
