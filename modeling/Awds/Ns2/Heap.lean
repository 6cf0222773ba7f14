import Awds.Lib.BinaryHeap
import Awds.Ns2.Scheduler

/-!
# `HeapScheduler` and `Heap`: `ns2-gea/ns-2/common/{heap.h,scheduler.cc}`

| here | there |
| --- | --- |
| `Elem`, `Heap`          | `Heap::Heap_elem`, `Heap` (`heap.h:70`) |
| `heap_member`, `heap_delete` | `scheduler.cc:379`, :412 |
| `siftUp`, `heap_insert` | the `while` of `heap_insert`, `heap_insert` (:438) |
| `heapify`, `heap_extract_min` | the `while` of `heap_extract_min`, `heap_extract_min` (:498) |
| `HeapScheduler`         | `HeapScheduler` (`scheduler.h`, `scheduler.cc:543`) |

`h_elems` is the memory behind the pointer: what is above `h_size` stays there and is not read.
`h_s_key` is an `unsigned int` and wraps. The sizes and indices do not: for that it would take more than
`maxInserts` events. `heap_iter` goes through the cells in their order.
-/

namespace Ns2.Sched

open StableQueue BinaryHeap

variable {ι η κ : Type*} [LinearOrder κ]

structure Elem (ι η κ : Type*) where
  he_key : κ
  he_s_key : ℕ
  he_elem : Option (Event ι η κ)
deriving DecidableEq, Repr

structure Heap (ι η κ : Type*) where
  h_elems : ℕ → Elem ι η κ
  h_s_key : ℕ
  h_size : ℕ
  h_maxsize : ℕ

namespace Heap

def KEY_LESS_THAN (k1 : κ) (ks1 : ℕ) (k2 : κ) (ks2 : ℕ) : Bool := k1 < k2 || (k1 = k2 && ks1 < ks2)

def less (x y : Elem ι η κ) : Bool := KEY_LESS_THAN x.he_key x.he_s_key y.he_key y.he_s_key

/-- `swap` (`heap.h:85`). -/
def swap (a : ℕ → Elem ι η κ) (i j : ℕ) : ℕ → Elem ι η κ := Function.update (Function.update a i (a j)) j (a i)

/-- `Heap::Heap`, with `HEAP_DEFAULT_SIZE` cells. -/
def init [Zero κ] : Heap ι η κ := ⟨fun _ => ⟨0, 0, none⟩, 0, 0, 32⟩

/-- The loop of `heap_insert`: parents move down into the hole. -/
def siftUp (key : κ) (s_key : ℕ) (a : ℕ → Elem ι η κ) (i : ℕ) : (ℕ → Elem ι η κ) × ℕ :=
  if _h : 0 < i ∧ KEY_LESS_THAN key s_key (a (parent i)).he_key (a (parent i)).he_s_key = true then
    siftUp key s_key (Function.update a i (a (parent i))) (parent i)
  else (a, i)
termination_by i
decreasing_by exact parent_lt _h.1

def heap_insert (key : κ) (elem : Event ι η κ) (h : Heap ι η κ) : Heap ι η κ :=
  let maxsize := if h.h_maxsize = h.h_size then h.h_maxsize * 2 else h.h_maxsize
  let r := siftUp key h.h_s_key h.h_elems h.h_size
  { h_elems := Function.update r.1 r.2 ⟨key, h.h_s_key, some elem⟩
    h_s_key := (h.h_s_key + 1) % 2 ^ 32
    h_size := h.h_size + 1
    h_maxsize := maxsize }

/-- The child `heap_extract_min` tries, `i` if there is none. -/
def child (a : ℕ → Elem ι η κ) (size i : ℕ) : ℕ :=
  if right i < size then (if less (a (left i)) (a (right i)) then left i else right i)
  else if left i < size then left i else i

theorem child_cases (a : ℕ → Elem ι η κ) (size i : ℕ) :
    (child a size i = i ∧ size ≤ left i) ∨ (i < child a size i ∧ child a size i < size ∧ parent (child a size i) = i) := by
  unfold child left right parent
  split_ifs <;> omega

/-- The loop of `heap_extract_min`. -/
def heapify (a : ℕ → Elem ι η κ) (size i : ℕ) : ℕ → Elem ι η κ :=
  if _h : child a size i ≠ i ∧ less (a (child a size i)) (a i) = true then
    heapify (swap a i (child a size i)) size (child a size i)
  else a
termination_by size - i
decreasing_by
  rcases child_cases a size i with ⟨heq, -⟩ | ⟨hlt, hsize, -⟩
  · exact absurd heq _h.1
  · omega

def heap_extract_min (h : Heap ι η κ) : Option (Event ι η κ) × Heap ι η κ :=
  if h.h_size = 0 then (none, h)
  else
    let size := h.h_size - 1
    let a := Function.update h.h_elems 0 (h.h_elems size)
    ((h.h_elems 0).he_elem, { h with h_elems := heapify a size 0, h_size := size })

/-- The index of the event (one less than what the source returns). -/
def heap_member [DecidableEq ι] [DecidableEq η] (elem : Event ι η κ) (h : Heap ι η κ) : Option ℕ :=
  (List.range h.h_size).find? fun i => (h.h_elems i).he_elem = some elem

/-- The loop of `heap_delete`: up to the root, without comparing keys. -/
def raise (a : ℕ → Elem ι η κ) (i : ℕ) : ℕ → Elem ι η κ :=
  if _h : i = 0 then a else raise (swap a i (parent i)) (parent i)
termination_by i
decreasing_by exact parent_lt (Nat.pos_of_ne_zero _h)

def heap_delete [DecidableEq ι] [DecidableEq η] (elem : Event ι η κ) (h : Heap ι η κ) : Bool × Heap ι η κ :=
  match heap_member elem h with
  | none => (false, h)
  | some i => (true, (heap_extract_min { h with h_elems := raise h.h_elems i }).2)

def heap_min (h : Heap ι η κ) : Option (Event ι η κ) := if 0 < h.h_size then (h.h_elems 0).he_elem else none

/-- What `heap_iter_init` and `heap_iter` go through. -/
def iter (h : Heap ι η κ) : List (Event ι η κ) := (List.range h.h_size).filterMap fun i => (h.h_elems i).he_elem

end Heap

/-- `cancel` does not look at what `heap_delete` returns. -/
def HeapScheduler [DecidableEq ι] [DecidableEq η] [Zero κ] : Impl (Event ι η κ) ℤ (Heap ι η κ) where
  init := Heap.init
  insert e h := h.heap_insert e.time e
  cancel e h := some (h.heap_delete e).2
  deque h := match h.heap_extract_min with
    | (none, _) => none
    | (some e, h') => some (e, h')
  head h := (h.heap_min, h)
  lookup uid h := h.iter.find? (·.uid = uid)

/-! ## The loops keep the elements and the order -/

namespace Heap

def key (x : Elem ι η κ) : κ ×ₗ ℕ := toLex (x.he_key, x.he_s_key)

variable {a : ℕ → Elem ι η κ} {n i : ℕ}

theorem KEY_LESS_THAN_iff {k1 k2 : κ} {s1 s2 : ℕ} :
    KEY_LESS_THAN k1 s1 k2 s2 = true ↔ toLex (k1, s1) < toLex (k2, s2) := by
  simp [KEY_LESS_THAN, Prod.Lex.toLex_lt_toLex]

theorem less_iff {x y : Elem ι η κ} : less x y = true ↔ key x < key y := KEY_LESS_THAN_iff

omit [LinearOrder κ] in
theorem swap_eq (a : ℕ → Elem ι η κ) (i j : ℕ) : swap a i j = a ∘ Equiv.swap i j := by
  funext k
  by_cases hj : k = j
  · subst hj
    rw [swap, Function.update_self, swap_right]
  · by_cases hi : k = i
    · subst hi
      rw [swap, Function.update_of_ne hj, Function.update_self, swap_left]
    · rw [swap, Function.update_of_ne hj, Function.update_of_ne hi, swap_of_ne a hi hj]

/-- `siftUp` finds the cell for `x`. -/
theorem siftUp_spec (x : Elem ι η κ) (hi : i < n) (h : Up key (Function.update a i x) n i) :
    let r := siftUp x.he_key x.he_s_key a i
    contents (Function.update r.1 r.2 x) n = contents (Function.update a i x) n ∧
      Ordered key (Function.update r.1 r.2 x) n := by
  fun_induction siftUp x.he_key x.he_s_key a i with
  | case1 a i hmove ih =>
    obtain ⟨hpos, hless⟩ := hmove
    have hne : parent i ≠ i := (parent_lt hpos).ne
    have hp : parent i < n := (parent_lt hpos).trans hi
    have hlt : key (Function.update a i x i) < key (Function.update a i x (parent i)) := by
      rw [Function.update_self, Function.update_of_ne hne]
      exact KEY_LESS_THAN_iff.1 hless
    have hup := h.swap hpos hi hlt
    rw [← update_shift a hne] at hup
    obtain ⟨hcont, hord⟩ := ih hp hup
    refine ⟨hcont.trans ?_, hord⟩
    rw [update_shift a hne, contents_swap _ hi hp]
  | case2 a i hstay =>
    refine ⟨rfl, h.done fun hpos => ?_⟩
    rw [Function.update_self, Function.update_of_ne (parent_lt hpos).ne]
    exact not_lt.1 fun hlt => hstay ⟨hpos, KEY_LESS_THAN_iff.2 hlt⟩

/-- `child` is the first of the children. -/
theorem child_le {j : ℕ} (hj : 0 < j) (hjn : j < n) (hp : parent j = i) : key (a (child a n i)) ≤ key (a j) := by
  have hlr : left i < right i := by unfold left right; omega
  rcases (parent_eq_iff hj).1 hp with rfl | rfl
  · unfold child
    split_ifs with hr hless
    · exact le_rfl
    · exact not_lt.1 fun hlt => hless (less_iff.2 hlt)
    · exact le_rfl
  · unfold child
    split_ifs with hless
    · exact (less_iff.1 hless).le
    · exact le_rfl

theorem heapify_spec (h : Down key a n i) :
    contents (heapify a n i) n = contents a n ∧ Ordered key (heapify a n i) n := by
  fun_induction heapify a n i with
  | case1 a i hmove ih =>
    rcases child_cases a n i with ⟨heq, -⟩ | ⟨hlt, hn, hp⟩
    · exact absurd heq hmove.1
    · have hdown := h.swap (i.zero_le.trans_lt hlt) hn hp (fun j hj hjn hjp => child_le hj hjn hjp) (less_iff.1 hmove.2)
      rw [← swap_eq] at hdown
      obtain ⟨hcont, hord⟩ := ih hdown
      refine ⟨hcont.trans ?_, hord⟩
      rw [swap_eq, contents_swap a (hlt.trans hn) hn]
  | case2 a i hstay =>
    refine ⟨rfl, h.done fun j hj hjn hjp => ?_⟩
    have hchild : child a n i ≠ i := by
      rcases child_cases a n i with ⟨-, hsize⟩ | ⟨hlt, -, -⟩
      · rcases (parent_eq_iff hj).1 hjp with rfl | rfl
        · omega
        · unfold right at hjn; unfold left at hsize; omega
      · exact hlt.ne'
    exact (not_lt.1 fun hlt => hstay ⟨hchild, less_iff.2 hlt⟩).trans (child_le hj hjn hjp)

/-- `raise` brings the element at `i` to the root; only the root may then be out of order. -/
theorem raise_spec (hi : i < n) (h : OrderedBut key a n i) :
    contents (raise a i) n = contents a n ∧ OrderedBut key (raise a i) n 0 ∧ raise a i 0 = a i := by
  fun_induction raise a i with
  | case1 a =>
    exact ⟨rfl, h, rfl⟩
  | case2 a i hne ih =>
    have hpos : 0 < i := Nat.pos_of_ne_zero hne
    have hp : parent i < n := (parent_lt hpos).trans hi
    have hbut := h.swap_parent hpos hi
    rw [← swap_eq] at hbut
    obtain ⟨hcont, hroot, hval⟩ := ih hp hbut
    refine ⟨hcont.trans ?_, hroot, hval.trans ?_⟩
    · rw [swap_eq, contents_swap a hi hp]
    · rw [swap_eq, swap_right]

/-- `heap_extract_min` takes the root away, whatever it is. -/
theorem extract_spec {m : ℕ} (h : OrderedBut key a (m + 1) 0) :
    let b := heapify (Function.update a 0 (a m)) m 0
    a 0 ::ₘ contents b m = contents a (m + 1) ∧ Ordered key b m := by
  have hroot : OrderedBut key (Function.update a 0 (a m)) m 0 := by
    have hm : OrderedBut key a m 0 :=
      ⟨fun j hj hjm => h.off j hj (hjm.trans (Nat.lt_succ_self m)), fun h0 => absurd h0 (lt_irrefl 0)⟩
    exact hm.root fun j hj _ => Function.update_of_ne hj.ne' _ a
  obtain ⟨hcont, hord⟩ := heapify_spec ⟨hroot, fun h0 => absurd h0 (lt_irrefl 0)⟩
  exact ⟨by rw [hcont, contents_replace], hord⟩

/-! ## The heap holds the list -/

/-- The cell of an event; `sk` is the secondary key it was inserted with. -/
def cell (sk : Event ι η κ → ℕ) (e : Event ι η κ) : Elem ι η κ := ⟨e.time, sk e, some e⟩

/-- `h_size` and `h_maxsize * 2` stay below `2 ^ 32` up to here. -/
def maxInserts : ℕ := 2 ^ 31

/-- After `n` insertions the heap holds the events of `l`, equal times in the order of `l`. -/
structure Holds (n : ℕ) (h : Heap ι η κ) (l : List (Event ι η κ)) (sk : Event ι η κ → ℕ) : Prop where
  cells : contents h.h_elems h.h_size = (l : Multiset (Event ι η κ)).map (cell sk)
  sorted : l.Pairwise fun x y => toLex (x.time, sk x) < toLex (y.time, sk y)
  below : ∀ e ∈ l, sk e < n
  ordered : Ordered key h.h_elems h.h_size
  s_key : h.h_s_key = n % 2 ^ 32
  inserts : n ≤ maxInserts
  room : h.h_size ≤ h.h_maxsize ∧ 0 < h.h_maxsize

/-- The relation of the implementation to the list. -/
def Rel (n : ℕ) (h : Heap ι η κ) (l : List (Event ι η κ)) : Prop := ∃ sk, Holds n h l sk

variable {h : Heap ι η κ} {l : List (Event ι η κ)} {sk : Event ι η κ → ℕ} {e : Event ι η κ}

omit [LinearOrder κ] in
theorem cell_congr {sk' : Event ι η κ → ℕ} {l : List (Event ι η κ)} (hsk : ∀ x ∈ l, sk' x = sk x) :
    (l : Multiset (Event ι η κ)).map (cell sk') = (l : Multiset (Event ι η κ)).map (cell sk) :=
  Multiset.map_congr rfl fun x hx => by rw [cell, cell, hsk x hx]

theorem Holds.size (hh : Holds n h l sk) : h.h_size = l.length := by
  have hcard := congrArg Multiset.card hh.cells
  simpa [contents] using hcard

theorem Holds.insert [DecidableEq ι] [DecidableEq η] (hh : Holds n h l sk) (he : e ∉ l) (hn : n < maxInserts) :
    Holds (n + 1) (h.heap_insert e.time e) (Multimap.insert Event.time e l) (Function.update sk e n) := by
  have hsk : ∀ x ∈ l, Function.update sk e n x = sk x := fun x hx =>
    Function.update_of_ne (ne_of_mem_of_not_mem hx he) n sk
  have hself : Function.update sk e n e = n := Function.update_self ..
  have hkey : h.h_s_key = n := hh.s_key.trans (Nat.mod_eq_of_lt (hn.trans (by unfold maxInserts; norm_num)))
  -- the new element starts in the last cell, which has no children
  have hup : Up key (Function.update h.h_elems h.h_size ⟨e.time, h.h_s_key, some e⟩) (h.h_size + 1) h.h_size := by
    have hlast : ∀ j, 0 < j → j < h.h_size + 1 → parent j ≠ h.h_size := by
      intro j hj hjn
      have hlt := parent_lt hj
      omega
    refine { off := fun j hj hjn hji hp => ?_, across := fun _ j hj hjn hp => absurd hp (hlast j hj hjn),
             below := fun j hj hjn hp => absurd hp (hlast j hj hjn) }
    rw [Function.update_of_ne hp, Function.update_of_ne hji]
    exact hh.ordered j hj (by omega)
  obtain ⟨hcont, hord⟩ := siftUp_spec (n := h.h_size + 1) ⟨e.time, h.h_s_key, some e⟩ (Nat.lt_succ_self _) hup
  have hother : contents (Function.update h.h_elems h.h_size ⟨e.time, h.h_s_key, some e⟩) h.h_size =
      contents h.h_elems h.h_size :=
    contents_congr fun i hi => Function.update_of_ne hi.ne _ _
  refine ⟨?_, ?_, fun x hx => ?_, hord, ?_, hn, ?_⟩
  · have hperm : (Multimap.insert Event.time e l : Multiset (Event ι η κ)) = e ::ₘ l :=
      Multiset.coe_eq_coe.2 (Multimap.insert_perm Event.time e l)
    rw [hperm, Multiset.map_cons, cell_congr hsk, ← hh.cells]
    refine hcont.trans ?_
    rw [contents_succ, Function.update_self, hother, cell, hself, hkey]
  · refine Multimap.stable_insert ?_ fun y hy => ?_
    · refine hh.sorted.imp_of_mem fun {x y} hx hy hxy => ?_
      rw [hsk x hx, hsk y hy]
      exact hxy
    · rw [hself, hsk y hy]
      exact hh.below y hy
  · rcases Multimap.mem_insert.1 hx with rfl | hx
    · rw [hself]; exact Nat.lt_succ_self n
    · rw [hsk x hx]; exact (hh.below x hx).trans (Nat.lt_succ_self n)
  · simp only [heap_insert, hkey]
  · have hroom := hh.room
    simp only [heap_insert]
    split_ifs <;> omega

/-- The root goes away. -/
theorem Holds.extract [DecidableEq ι] [DecidableEq η] {a : ℕ → Elem ι η κ} (hh : Holds n h l sk) (he : e ∈ l)
    (hcont : contents a h.h_size = contents h.h_elems h.h_size) (hbut : OrderedBut key a h.h_size 0)
    (hroot : a 0 = cell sk e) :
    (heap_extract_min { h with h_elems := a }).1 = some e ∧
      Holds n (heap_extract_min { h with h_elems := a }).2 (l.erase e) sk := by
  obtain ⟨m, hm⟩ : ∃ m, h.h_size = m + 1 := by
    have hpos := List.length_pos_of_mem he
    exact ⟨l.length - 1, by rw [hh.size]; omega⟩
  rw [hm] at hbut hcont
  obtain ⟨hrest, hord⟩ := extract_spec hbut
  simp only [heap_extract_min, hm, Nat.add_sub_cancel, Nat.succ_ne_zero, if_false]
  refine ⟨by rw [hroot]; rfl, ⟨?_, hh.sorted.sublist List.erase_sublist, fun x hx => hh.below x (List.mem_of_mem_erase hx),
    hord, hh.s_key, hh.inserts, ?_⟩⟩
  · have hall : cell sk e ::ₘ contents (heapify (Function.update a 0 (a m)) m 0) m =
        cell sk e ::ₘ (l.erase e : Multiset (Event ι η κ)).map (cell sk) := by
      have hperm : (l : Multiset (Event ι η κ)) = e ::ₘ (l.erase e : List (Event ι η κ)) :=
        Multiset.coe_eq_coe.2 (List.perm_cons_erase he)
      rw [← hroot, hrest, hcont, ← hm, hh.cells, hperm, Multiset.map_cons, hroot]
    exact (Multiset.cons_inj_right _).1 hall
  · have hsize : m ≤ h.h_maxsize := by have hroom := hh.room.1; omega
    exact ⟨hsize, hh.room.2⟩

/-- The first event of the list is at the root. -/
theorem Holds.root (hh : Holds n h (e :: l) sk) : h.h_elems 0 = cell sk e := by
  have hsize : h.h_size = l.length + 1 := by rw [hh.size, List.length_cons]
  have hmin : ∀ i < h.h_size, key (h.h_elems 0) ≤ key (h.h_elems i) := hh.ordered.root_le
  have hcell : ∀ x, x ∈ e :: l → ∃ i < h.h_size, h.h_elems i = cell sk x := by
    intro x hx
    refine mem_contents.1 ?_
    rw [hh.cells]
    exact Multiset.mem_map_of_mem _ (by simpa using hx)
  have hzero : h.h_elems 0 ∈ contents h.h_elems h.h_size := mem_contents.2 ⟨0, by omega, rfl⟩
  rw [hh.cells] at hzero
  obtain ⟨y, hy, hy0⟩ := Multiset.mem_map.1 hzero
  obtain ⟨i, hi, hie⟩ := hcell e List.mem_cons_self
  have hle : key (cell sk y) ≤ key (cell sk e) := by
    rw [hy0, ← hie]
    exact hmin i hi
  rcases List.mem_cons.1 (by simpa using hy) with rfl | hyl
  · exact hy0.symm
  · exact absurd ((List.pairwise_cons.1 hh.sorted).1 y hyl) hle.not_gt

theorem Holds.mem_iff (hh : Holds n h l sk) : (∃ i < h.h_size, (h.h_elems i).he_elem = some e) ↔ e ∈ l := by
  constructor
  · rintro ⟨i, hi, hie⟩
    have hmem : h.h_elems i ∈ contents h.h_elems h.h_size := mem_contents.2 ⟨i, hi, rfl⟩
    rw [hh.cells] at hmem
    obtain ⟨y, hy, hyi⟩ := Multiset.mem_map.1 hmem
    rw [← hyi] at hie
    obtain rfl : y = e := Option.some.inj hie
    simpa using hy
  · intro he
    have hmem : cell sk e ∈ contents h.h_elems h.h_size := by
      rw [hh.cells]
      exact Multiset.mem_map_of_mem _ (by simpa using he)
    obtain ⟨i, hi, hie⟩ := mem_contents.1 hmem
    exact ⟨i, hi, by rw [hie]; rfl⟩

theorem Holds.eq_cell (hh : Holds n h l sk) (hi : i < h.h_size) (hie : (h.h_elems i).he_elem = some e) :
    h.h_elems i = cell sk e := by
  have hmem : h.h_elems i ∈ contents h.h_elems h.h_size := mem_contents.2 ⟨i, hi, rfl⟩
  rw [hh.cells] at hmem
  obtain ⟨y, -, hyi⟩ := Multiset.mem_map.1 hmem
  rw [← hyi] at hie ⊢
  rw [Option.some.inj hie]

/-- What is swapped to the root and taken away is the event. -/
theorem Holds.delete [DecidableEq ι] [DecidableEq η] (hh : Holds n h l sk) (he : e ∈ l) :
    Holds n (h.heap_delete e).2 (l.erase e) sk := by
  cases hfind : heap_member e h with
  | none =>
    obtain ⟨i, hi, hie⟩ := hh.mem_iff.2 he
    rw [heap_member, List.find?_eq_none] at hfind
    exact absurd (by simpa using hie) (hfind i (List.mem_range.2 hi))
  | some i =>
    have hi : i < h.h_size := List.mem_range.1 (List.mem_of_find?_eq_some hfind)
    have hie : (h.h_elems i).he_elem = some e := by simpa using List.find?_some hfind
    obtain ⟨hcont, hbut, hroot⟩ := raise_spec hi (hh.ordered.but i)
    simp only [heap_delete, hfind]
    exact (hh.extract he hcont hbut (hroot.trans (hh.eq_cell hi hie))).2

theorem Holds.iter_perm (hh : Holds n h l sk) : h.iter.Perm l := by
  refine Multiset.coe_eq_coe.1 ?_
  have hiter : (h.iter : Multiset (Event ι η κ)) = (contents h.h_elems h.h_size).filterMap Elem.he_elem := by
    rw [contents, Multiset.filterMap_map]
    rfl
  rw [hiter, hh.cells, Multiset.filterMap_map]
  exact Multiset.filterMap_some _

/-- `HeapScheduler` is a stable queue, for the first `maxInserts` insertions. -/
theorem refines [DecidableEq ι] [DecidableEq η] [Zero κ] :
    Refines (HeapScheduler : Impl (Event ι η κ) ℤ _) (fun _ => True) maxInserts Rel where
  init := by
    refine ⟨fun _ => 0, ⟨rfl, .nil, by simp, fun i _ hi => absurd hi i.not_lt_zero, rfl, Nat.zero_le _, ?_⟩⟩
    simp [HeapScheduler, init]
  insert := by
    rintro n h l e ⟨sk, hh⟩ - - hnew hn
    exact ⟨_, hh.insert (fun he => lt_irrefl _ (hnew e he)) hn⟩
  cancel := by
    rintro n h l e ⟨sk, hh⟩ - he
    exact ⟨_, rfl, sk, hh.delete he⟩
  deque_nil := by
    rintro n h ⟨sk, hh⟩
    have hsize : h.h_size = 0 := hh.size
    simp only [HeapScheduler, heap_extract_min, if_pos hsize]
  deque_cons := by
    rintro n h e l ⟨sk, hh⟩ -
    obtain ⟨hmin, hrest⟩ := hh.extract List.mem_cons_self rfl (hh.ordered.but 0) hh.root
    rw [List.erase_cons_head] at hrest
    refine ⟨h.heap_extract_min.2, ?_, sk, hrest⟩
    have hpair : h.heap_extract_min = (some e, h.heap_extract_min.2) := Prod.ext hmin rfl
    simp only [HeapScheduler]
    rw [hpair]
  head := by
    rintro n h l ⟨sk, hh⟩ -
    refine ⟨?_, sk, hh⟩
    cases l with
    | nil =>
      have hsize : h.h_size = 0 := hh.size
      simp [HeapScheduler, heap_min, hsize]
    | cons e l =>
      have hsize : 0 < h.h_size := by rw [hh.size]; simp
      simp only [HeapScheduler, heap_min, if_pos hsize, hh.root]
      rfl
  lookup := by
    rintro n h l u ⟨sk, hh⟩ - hunique
    exact hunique.find?_of_perm hh.iter_perm

end Heap

/-- Whatever the program does with its first `2 ^ 31` events, `HeapScheduler` dispatches the events that
`ListScheduler` dispatches, in the same order, and answers every cancel and lookup the same. -/
theorem heap_trace_eq [DecidableEq ι] [DecidableEq η] {κ : Type*} [AddCommGroup κ] [LinearOrder κ] (uidMax : ℤ)
    (ops : List (Op ι η κ)) (hops : ∀ op ∈ ops, op.Ok (fun _ => True) (fun _ => True) True)
    (hn : insertions ops ≤ 2 ^ 31) :
    trace HeapScheduler uidMax (St.init HeapScheduler) ops = trace ListScheduler uidMax (St.init ListScheduler) ops :=
  trace_eq (Heap.refines.restrict fun _ _ => trivial) trivial (fun _ _ _ _ => trivial) ops hops hn

/-- Equal times in order of insertion, also behind a cancel. -/
theorem heap_trace_eq_three :
    trace (HeapScheduler : Impl (Event ℕ ℕ ℤ) ℤ _) 9 (St.init HeapScheduler)
      [.schedule (some 0) 1 3, .insert 0 3, .schedule (some 0) 3 3, .cancel 1, .dispatch, .dispatch] =
    [.ok (.inserted ⟨.own 1, some 0, 3, 1, 0⟩), .ok (.inserted ⟨.new 1, some 0, 3, 0, 1⟩),
      .ok (.inserted ⟨.own 3, some 0, 3, 2, 2⟩), .ok (.cancelled ⟨.own 1, some 0, 3, 1, 0⟩),
      .ok (.dispatched ⟨.new 1, some 0, 3, 0, 1⟩), .ok (.dispatched ⟨.own 3, some 0, 3, 2, 2⟩)] :=
  (heap_trace_eq 9 _ (by simp [Op.Ok]) (by decide)).trans rfl

end Ns2.Sched
