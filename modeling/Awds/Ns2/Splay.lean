import Awds.Lib.SearchTree
import Awds.Ns2.Scheduler

/-!
# `SplayScheduler`: `ns2-gea/ns-2/common/splay-scheduler.cc`

| here | there |
| --- | --- |
| `insertLoop`, `insert` | the `for` of `SplayScheduler::insert`, `insert` (:127) |
| `head`, `dequeLoop`, `deque` | `head` (:192), the `for` of `deque`, `deque` (:239) |
| `unlink`, `remove`     | `SplayScheduler::cancel` (:285), from "t is the pointer to e" on, its search |
| `uid_lookup`           | `uid_lookup` (:359) |

`prev_` and `next_` of an event are its left and right child: the events in the queue are a binary tree.
In `insertLoop` the trees that hang at `r` and `l` are lists of their spines (`plugLeft`, `plugRight`).
-/

namespace Ns2.Sched

open StableQueue SearchTree BinaryTree

variable {ι η κ : Type*} [LinearOrder κ]

namespace Splay

/-- Go down to where an event at `time` belongs, hanging what is left of it at `l` and what is right of it
at `r`; two steps in one direction are a rotation and one step. -/
def insertLoop (time : κ) : BinaryTree (Event ι η κ) → List (Event ι η κ × BinaryTree (Event ι η κ)) →
    List (Event ι η κ × BinaryTree (Event ι η κ)) → BinaryTree (Event ι η κ) × BinaryTree (Event ι η κ)
  | nil, l, r => (plugRight l nil, plugLeft r nil)
  | node t left right, l, r =>
    if time < t.time then
      match left with
      | nil => (plugRight l nil, plugLeft r (node t nil right))
      | node x xl xr =>
        if time < x.time then insertLoop time xl l ((x, node t xr right) :: r)
        else insertLoop time (node x xl xr) l ((t, right) :: r)
    else
      match right with
      | nil => (plugRight l (node t left nil), plugLeft r nil)
      | node x xl xr =>
        if x.time ≤ time then insertLoop time xr ((x, node t left xl) :: l) r
        else insertLoop time (node x xl xr) ((t, left) :: l) r

def insert (n : Event ι η κ) (root : BinaryTree (Event ι η κ)) : BinaryTree (Event ι η κ) :=
  node n (insertLoop n.time root [] []).1 (insertLoop n.time root [] []).2

/-- `head`: follow `LEFT`. -/
def head : BinaryTree (Event ι η κ) → Option (Event ι η κ)
  | nil => none
  | node t nil _ => some t
  | node _ (node l ll lr) _ => head (node l ll lr)

/-- `t` with the left child `l`: the event that leaves, and what `t` becomes. -/
def dequeLoop : BinaryTree (Event ι η κ) → Event ι η κ → BinaryTree (Event ι η κ) → Event ι η κ →
    BinaryTree (Event ι η κ) → Event ι η κ × BinaryTree (Event ι η κ)
  | nil, l, lr, t, tr => (l, node t lr tr)
  | node ll nil llr, l, lr, t, tr => (ll, node t (node l llr lr) tr)
  | node ll (node lll lll_l lll_r) llr, l, lr, t, tr =>
    let rest := dequeLoop lll_l lll lll_r ll (node l llr lr)
    (rest.1, node t rest.2 tr)

def deque : BinaryTree (Event ι η κ) → Option (Event ι η κ × BinaryTree (Event ι η κ))
  | nil => none
  | node t nil right => some (t, right)
  | node t (node l ll lr) right => some (dequeLoop ll l lr t right)

/-- What takes the place of an event with the children `left` and `right`. -/
def unlink (left : BinaryTree (Event ι η κ)) : BinaryTree (Event ι η κ) → BinaryTree (Event ι η κ)
  | nil => left
  | node p pl pr => match left with
    | nil => node p pl pr
    | node q ql qr => node (popLeft p pl pr).1 (node q ql qr) (popLeft p pl pr).2

def uid_lookup (uid : ℤ) : BinaryTree (Event ι η κ) → Option (Event ι η κ)
  | nil => none
  | node t left right =>
    if t.uid = uid then some t
    else match uid_lookup uid left with
      | some res => some res
      | none => uid_lookup uid right

/-- The search of `cancel`, by time and uid; `none` is "did not find it". -/
def remove [DecidableEq ι] [DecidableEq η] (e : Event ι η κ) : BinaryTree (Event ι η κ) → Option (BinaryTree (Event ι η κ))
  | nil => none
  | node t left right =>
    if t = e then some (unlink left right)
    else if t.time < e.time ∨ (e.time = t.time ∧ t.uid < e.uid) then (remove e right).map (node t left ·)
    else (remove e left).map (node t · right)

end Splay

def SplayScheduler [DecidableEq ι] [DecidableEq η] : Impl (Event ι η κ) ℤ (BinaryTree (Event ι η κ)) where
  init := nil
  insert := Splay.insert
  cancel := Splay.remove
  deque := Splay.deque
  head t := (Splay.head t, t)
  lookup := Splay.uid_lookup

namespace Splay

/-! ## The tree holds the list -/

/-- Behind an event that is later than `time` all are. -/
theorem later {A B : List (Event ι η κ)} {x : Event ι η κ} {time : κ}
    (h : Multimap.Sorted Event.time (A ++ x :: B)) (hx : time < x.time) : ∀ b ∈ x :: B, time < b.time := by
  intro b hb
  rcases List.mem_cons.1 hb with rfl | hb
  · exact hx
  · exact hx.trans_le ((List.pairwise_cons.1 (List.pairwise_append.1 h).2.1).1 b hb)

/-- Before an event that is not later than `time` none is. -/
theorem notLater {A B : List (Event ι η κ)} {x : Event ι η κ} {time : κ}
    (h : Multimap.Sorted Event.time (A ++ x :: B)) (hx : x.time ≤ time) : ∀ a ∈ A ++ [x], a.time ≤ time := by
  intro a ha
  rcases List.mem_append.1 ha with ha | ha
  · exact ((List.pairwise_append.1 h).2.2 a ha x List.mem_cons_self).trans hx
  · rw [List.mem_singleton.1 ha]
    exact hx

/-- The loop cuts the tree where the time belongs. -/
theorem insertLoop_spec (time : κ) (t : BinaryTree (Event ι η κ)) (l r : List (Event ι η κ × BinaryTree (Event ι η κ)))
    (hsorted : Multimap.Sorted Event.time (inorder t)) :
    ∃ A B, inorder t = A ++ B ∧ inorder (insertLoop time t l r).1 = before l ++ A ∧
      inorder (insertLoop time t l r).2 = B ++ behind r ∧ (∀ a ∈ A, a.time ≤ time) ∧ ∀ b ∈ B, time < b.time := by
  fun_induction insertLoop time t l r with
  | case1 l r => exact ⟨[], [], rfl, by simp [inorder_plugRight], by simp [inorder_plugLeft], by simp, by simp⟩
  | case2 t right l r hlt =>
    refine ⟨[], t :: inorder right, rfl, by simp [inorder_plugRight], by simp [inorder_plugLeft], by simp, ?_⟩
    exact later hsorted hlt
  | case3 t right l r hlt x xl xr hrot ih =>
    have hcut : inorder (node t (node x xl xr) right) = inorder xl ++ x :: (inorder xr ++ t :: inorder right) := by simp
    rw [hcut] at hsorted
    obtain ⟨A, B, hAB, h1, h2, hA, hB⟩ := ih (List.pairwise_append.1 hsorted).1
    refine ⟨A, B ++ x :: (inorder xr ++ t :: inorder right), by rw [hcut, hAB]; simp, h1, ?_, hA, fun b hb => ?_⟩
    · rw [h2, behind]
      simp
    · rcases List.mem_append.1 hb with hb | hb
      · exact hB b hb
      · exact later hsorted hrot b hb
  | case4 t right l r hlt x xl xr hrot ih =>
    rw [inorder_node] at hsorted
    obtain ⟨A, B, hAB, h1, h2, hA, hB⟩ := ih (List.pairwise_append.1 hsorted).1
    refine ⟨A, B ++ t :: inorder right, by rw [inorder_node, hAB]; simp, h1, ?_, hA, fun b hb => ?_⟩
    · rw [h2, behind]
      simp
    · rcases List.mem_append.1 hb with hb | hb
      · exact hB b hb
      · exact later hsorted hlt b hb
  | case5 t left l r hge =>
    refine ⟨inorder left ++ [t], [], by simp, by simp [inorder_plugRight], by simp [inorder_plugLeft], ?_, by simp⟩
    exact notLater hsorted (not_lt.1 hge)
  | case6 t left l r hge x xl xr hrot ih =>
    have hcut : inorder (node t left (node x xl xr)) = (inorder left ++ t :: inorder xl) ++ x :: inorder xr := by simp
    rw [hcut] at hsorted
    obtain ⟨A, B, hAB, h1, h2, hA, hB⟩ := ih (List.pairwise_cons.1 (List.pairwise_append.1 hsorted).2.1).2
    refine ⟨(inorder left ++ t :: inorder xl) ++ x :: A, B, by rw [hcut, hAB]; simp, ?_, h2, fun a ha => ?_, hB⟩
    · rw [h1, before]
      simp
    · rw [List.append_cons] at ha
      rcases List.mem_append.1 ha with ha | ha
      · exact notLater hsorted hrot a ha
      · exact hA a ha
  | case7 t left l r hge x xl xr hrot ih =>
    rw [inorder_node] at hsorted
    obtain ⟨A, B, hAB, h1, h2, hA, hB⟩ := ih (List.pairwise_cons.1 (List.pairwise_append.1 hsorted).2.1).2
    refine ⟨inorder left ++ t :: A, B, by rw [inorder_node, hAB]; simp, ?_, h2, fun a ha => ?_, hB⟩
    · rw [h1, before]
      simp
    · rw [List.append_cons] at ha
      rcases List.mem_append.1 ha with ha | ha
      · exact notLater hsorted (not_lt.1 hge) a ha
      · exact hA a ha

theorem inorder_insert (n : Event ι η κ) (t : BinaryTree (Event ι η κ))
    (hsorted : Multimap.Sorted Event.time (inorder t)) :
    inorder (insert n t) = Multimap.insert Event.time n (inorder t) := by
  obtain ⟨A, B, hAB, h1, h2, hA, hB⟩ := insertLoop_spec n.time t [] [] hsorted
  rw [insert, inorder_node, h1, h2, hAB, Multimap.insert_append hA, Multimap.insert_of_all_lt hB]
  simp [before, behind]

omit [LinearOrder κ] in
theorem head_eq (t : BinaryTree (Event ι η κ)) : head t = (inorder t).head? := by
  fun_induction head t with
  | case1 => rfl
  | case2 t right => rfl
  | case3 t right l ll lr ih =>
    rw [ih]
    simp

omit [LinearOrder κ] in
theorem dequeLoop_spec (ll : BinaryTree (Event ι η κ)) (l : Event ι η κ) (lr : BinaryTree (Event ι η κ))
    (t : Event ι η κ) (tr : BinaryTree (Event ι η κ)) :
    (dequeLoop ll l lr t tr).1 :: inorder (dequeLoop ll l lr t tr).2 = inorder (node t (node l ll lr) tr) := by
  fun_induction dequeLoop ll l lr t tr with
  | case1 l lr t tr => simp
  | case2 ll llr l lr t tr => simp
  | case3 ll lll lll_l lll_r llr l lr t tr rest ih =>
    -- the zig-zig rotation keeps the order
    simp only [inorder_node] at ih ⊢
    rw [← List.cons_append, ih]
    simp

omit [LinearOrder κ] in
theorem deque_spec (t : BinaryTree (Event ι η κ)) :
    match inorder t with
    | [] => deque t = none
    | e :: l => ∃ t', deque t = some (e, t') ∧ inorder t' = l := by
  cases t with
  | nil => rfl
  | node t left right =>
    cases left with
    | nil => exact ⟨right, rfl, rfl⟩
    | node l ll lr =>
      rw [← dequeLoop_spec ll l lr t right]
      exact ⟨_, rfl, rfl⟩

omit [LinearOrder κ] in
theorem inorder_unlink (left right : BinaryTree (Event ι η κ)) :
    inorder (unlink left right) = inorder left ++ inorder right := by
  cases right with
  | nil => simp [unlink]
  | node p pl pr =>
    cases left with
    | nil => rfl
    | node q ql qr => rw [unlink, inorder_node, inorder_popLeft]

variable [DecidableEq ι] [DecidableEq η]

/-- The uids are in the order of the insertions, as they are if all events are `schedule`d. -/
def Numbered (l : List (Event ι η κ)) : Prop := ∀ e ∈ l, e.uid = e.seq + 1

/-- The search finds the event: what ranks before it lies left of it, what ranks behind it right. -/
theorem remove_spec {e : Event ι η κ} : ∀ {t : BinaryTree (Event ι η κ)}, Stable Event.time Event.seq (inorder t) →
    Numbered (inorder t) → e ∈ inorder t → ∃ t', remove e t = some t' ∧ inorder t' = (inorder t).erase e
  | nil, _, _, he => by simp at he
  | node t left right, hstable, hnum, he => by
    by_cases hte : t = e
    · subst hte
      have hnot : t ∉ inorder left := by
        have hnodup := hstable.nodup
        rw [inorder_node, List.nodup_append] at hnodup
        exact fun hm => hnodup.2.2 t hm t List.mem_cons_self rfl
      refine ⟨unlink left right, by rw [remove, if_pos rfl], ?_⟩
      rw [inorder_unlink, inorder_node, List.erase_append_right _ hnot, List.erase_cons_head]
    · have hsorted := List.pairwise_append.1 hstable.sorted
      have hl : (inorder left).Sublist (inorder (node t left right)) := List.sublist_append_left _ _
      have hr : (inorder right).Sublist (inorder (node t left right)) :=
        (List.sublist_cons_self t _).trans (List.sublist_append_right _ _)
      have hcond : (t.time < e.time ∨ e.time = t.time ∧ t.uid < e.uid) ↔
          rank Event.time Event.seq t < rank Event.time Event.seq e := by
        have htu : t.uid = t.seq + 1 := hnum t (by simp)
        have heu : e.uid = e.seq + 1 := hnum e he
        rw [rank_lt, eq_comm (a := e.time), htu, heu, add_lt_add_iff_right, Nat.cast_lt]
      rw [inorder_node, List.mem_append, List.mem_cons] at he
      rcases he with he | he | he
      · have hlt : rank Event.time Event.seq e < rank Event.time Event.seq t := hsorted.2.2 e he t List.mem_cons_self
        obtain ⟨l', hl', hin⟩ := remove_spec (hstable.sublist hl) (fun x hx => hnum x (hl.subset hx)) he
        refine ⟨node t l' right, by rw [remove, if_neg hte, if_neg (fun h => (hcond.1 h).not_gt hlt), hl']; rfl, ?_⟩
        rw [inorder_node, inorder_node, hin, List.erase_append_left _ he]
      · exact absurd he.symm hte
      · have hlt : rank Event.time Event.seq t < rank Event.time Event.seq e := (List.pairwise_cons.1 hsorted.2.1).1 e he
        have hnot : e ∉ inorder left := fun hm => (hsorted.2.2 e hm t List.mem_cons_self).not_gt hlt
        obtain ⟨r', hr', hin⟩ := remove_spec (hstable.sublist hr) (fun x hx => hnum x (hr.subset hx)) he
        refine ⟨node t left r', by rw [remove, if_neg hte, if_pos (hcond.2 hlt), hr']; rfl, ?_⟩
        rw [inorder_node, inorder_node, hin, List.erase_append_right _ hnot, List.erase_cons_tail (by simpa using hte)]

theorem remove_of_notMem {e : Event ι η κ} (t : BinaryTree (Event ι η κ)) (he : e ∉ inorder t) : remove e t = none := by
  induction t with
  | nil => rfl
  | node t left right ihl ihr =>
    rw [inorder_node, List.mem_append, List.mem_cons, not_or, not_or] at he
    obtain ⟨hl, ht, hr⟩ := he
    rw [remove, if_neg (Ne.symm ht), ihl hl, ihr hr]
    split_ifs <;> rfl

/-- Behind the insertion of a new event at its time the search for `e` goes the wrong way: the new event
is the root and has the smaller uid, but comes behind `e`. -/
theorem remove_hidden {e n : Event ι η κ} {t : BinaryTree (Event ι η κ)}
    (hsorted : Multimap.Sorted Event.time (inorder t)) (htime : n.time = e.time) (huid : n.uid < e.uid) :
    remove e (insert n t) = none := by
  obtain ⟨A, B, -, -, hright, -, hB⟩ := insertLoop_spec n.time t [] [] hsorted
  have hne : n ≠ e := by rintro rfl; exact lt_irrefl _ huid
  have hmem : e ∉ inorder (insertLoop n.time t [] []).2 := by
    rw [hright, behind, List.append_nil]
    exact fun hm => (hB e hm).ne htime
  rw [insert, remove, if_neg hne, if_pos (.inr ⟨htime.symm, huid⟩), remove_of_notMem _ hmem]
  rfl

/-- The events of a tree in the order of `uid_lookup`. -/
def preorder : BinaryTree (Event ι η κ) → List (Event ι η κ)
  | nil => []
  | node t left right => t :: (preorder left ++ preorder right)

omit [LinearOrder κ] [DecidableEq ι] [DecidableEq η] in
theorem uid_lookup_eq (uid : ℤ) (t : BinaryTree (Event ι η κ)) : uid_lookup uid t = (preorder t).find? (·.uid = uid) := by
  induction t with
  | nil => rfl
  | node t left right ihl ihr =>
    by_cases h : t.uid = uid
    · simp [uid_lookup, preorder, h]
    · rw [uid_lookup, if_neg h, ihl, ihr, preorder, List.find?_cons_of_neg (by simpa using h), List.find?_append]
      cases (preorder left).find? (·.uid = uid) with
      | none => rfl
      | some e => rfl

omit [LinearOrder κ] [DecidableEq ι] [DecidableEq η] in
theorem preorder_perm (t : BinaryTree (Event ι η κ)) : (preorder t).Perm (inorder t) := by
  induction t with
  | nil => exact .refl _
  | node t left right ihl ihr =>
    calc (t :: (preorder left ++ preorder right)).Perm (t :: (inorder left ++ inorder right)) := (ihl.append ihr).cons t
      _ |>.Perm (inorder left ++ t :: inorder right) := List.perm_middle.symm

/-- `SplayScheduler` is a stable queue for events that are `schedule`d. -/
theorem refines (cap : ℕ) :
    Refines (SplayScheduler : Impl (Event ι η κ) ℤ _) (fun e => e.uid = e.seq + 1) cap
      fun _ t l => inorder t = l ∧ Numbered l where
  init := ⟨rfl, by simp [Numbered]⟩
  insert := by
    rintro n t l e ⟨rfl, hnum⟩ hstable hok - -
    refine ⟨inorder_insert e t hstable.multimap, fun x hx => ?_⟩
    rcases Multimap.mem_insert.1 hx with rfl | hx
    · exact hok
    · exact hnum x hx
  cancel := by
    rintro n t l e ⟨rfl, hnum⟩ hstable he
    obtain ⟨t', hrem, hin⟩ := remove_spec hstable hnum he
    exact ⟨t', hrem, hin, fun x hx => hnum x (List.mem_of_mem_erase hx)⟩
  deque_nil := by
    rintro n t ⟨ht, -⟩
    have hspec := deque_spec t
    rw [ht] at hspec
    exact hspec
  deque_cons := by
    rintro n t e l ⟨ht, hnum⟩ -
    have hspec := deque_spec t
    rw [ht] at hspec
    obtain ⟨t', hdeq, hin⟩ := hspec
    exact ⟨t', hdeq, hin, fun x hx => hnum x (List.mem_cons_of_mem e hx)⟩
  head := by
    rintro n t l ⟨rfl, hnum⟩ -
    exact ⟨head_eq t, rfl, hnum⟩
  lookup := by
    rintro n t l u ⟨rfl, -⟩ - hunique
    exact (uid_lookup_eq u t).trans (hunique.find?_of_perm (preorder_perm t))

end Splay

/-- While all events are `schedule`d, `SplayScheduler` dispatches the events that `ListScheduler` dispatches,
in the same order, and answers every cancel and lookup the same. -/
theorem splay_trace_eq [DecidableEq ι] [DecidableEq η] {κ : Type*} [AddCommGroup κ] [LinearOrder κ] (uidMax : ℤ)
    (ops : List (Op ι η κ)) (hops : ∀ op ∈ ops, op.Ok (fun _ => True) (fun _ => True) False) :
    trace SplayScheduler uidMax (St.init SplayScheduler) ops = trace ListScheduler uidMax (St.init ListScheduler) ops :=
  trace_eq ((Splay.refines (insertions ops)).restrict fun _ he => he.2.resolve_left id) trivial (fun _ _ _ _ => trivial)
    ops hops le_rfl

/-- A cancel among events of one time. -/
theorem splay_trace_eq_three :
    trace (SplayScheduler : Impl (Event ℕ ℕ ℤ) ℤ _) 9 (St.init SplayScheduler)
      [.schedule (some 0) 1 3, .schedule (some 0) 2 3, .schedule (some 0) 3 3, .cancel 2, .dispatch, .dispatch] =
    [.ok (.inserted ⟨.own 1, some 0, 3, 1, 0⟩), .ok (.inserted ⟨.own 2, some 0, 3, 2, 1⟩),
      .ok (.inserted ⟨.own 3, some 0, 3, 3, 2⟩), .ok (.cancelled ⟨.own 2, some 0, 3, 2, 1⟩),
      .ok (.dispatched ⟨.own 1, some 0, 3, 1, 0⟩), .ok (.dispatched ⟨.own 3, some 0, 3, 3, 2⟩)] :=
  (splay_trace_eq 9 _ (by simp [Op.Ok])).trans rfl

/-- A `GeaNsEvent` of the same time that is inserted behind a scheduled event hides it: `cancel` aborts,
where `ListScheduler` cancels the event. -/
theorem splay_cancel_hidden [DecidableEq ι] [DecidableEq η] {κ : Type*} [AddCommGroup κ] [LinearOrder κ] (uidMax : ℤ)
    (ops : List (Op ι η κ)) (hops : ∀ op ∈ ops, op.Ok (fun _ => True) (fun _ => True) False) (o : ι) (h : η)
    {s : St ι η κ (BinaryTree (Event ι η κ))} (hs : s = final SplayScheduler uidMax (St.init SplayScheduler) ops)
    {t : St ι η κ (List (Event ι η κ))} (ht : t = final ListScheduler uidMax (St.init ListScheduler) ops)
    (hqueued : 0 < (s.mem o).uid) :
    (trace SplayScheduler uidMax s [.insert h (s.mem o).time, .cancel o]).getLast? = some (.error .notFound) ∧
      (trace ListScheduler uidMax t [.insert h (s.mem o).time, .cancel o]).getLast? =
        some (.ok (.cancelled (s.mem o))) := by
  have hQ : Refines (SplayScheduler : Impl (Event ι η κ) ℤ _) (Event.Ok (fun _ => True) False) (insertions ops)
      fun _ t l => inorder t = l ∧ Splay.Numbered l :=
    (Splay.refines (insertions ops)).restrict fun _ he => he.2.resolve_left id
  have hsim : Sim (fun _ => True) False (fun _ t l => inorder t = l ∧ Splay.Numbered l) s t := by
    rw [hs, ht]
    exact ((Sim.init hQ trivial).run hQ (fun _ _ _ _ => trivial) ops hops ((Nat.zero_add _).trans_le le_rfl)).2
  obtain ⟨hin, -⟩ := hsim.queue
  have hsorted : Multimap.Sorted Event.time (inorder s.queue) := by
    rw [hin]
    exact hsim.inv.stable.multimap
  have hpos : ¬ (s.mem o).uid ≤ 0 := not_le.2 hqueued
  have hmem : s.mem o ∈ t.queue := by
    rw [hsim.mem] at hqueued ⊢
    exact hsim.inv.queued o hqueued
  refine ⟨?_, ?_⟩
  · have hfail : SplayScheduler.cancel (s.mem o) (SplayScheduler.insert
        ⟨.new s.inserts, some h, (s.mem o).time, 0, s.inserts⟩ s.queue) = none :=
      Splay.remove_hidden hsorted rfl hqueued
    simp only [trace, Sched.step, St.insert, St.enqueue, store_new, St.cancel, if_neg hpos, hfail]
    rfl
  · have hin : s.mem o ∈ Multimap.insert Event.time ⟨.new t.inserts, some h, (s.mem o).time, 0, t.inserts⟩ t.queue :=
      Multimap.mem_insert.2 (.inr hmem)
    have hfound := listScheduler_cancel hin
    rw [hsim.mem] at hpos hfound ⊢
    simp only [trace, Sched.step, St.insert, St.enqueue, store_new, St.cancel, if_neg hpos, listScheduler_insert, hfound]
    rfl

/-- An event at 3, a `GeaNsEvent` at 3, and the first is not found. -/
theorem splay_cancel_hidden_one :
    (trace (SplayScheduler : Impl (Event ℕ ℕ ℤ) ℤ _) 9 (final SplayScheduler 9 (St.init SplayScheduler)
      [.schedule (some 0) 1 3]) [.insert 0 3, .cancel 1]).getLast? = some (.error .notFound) :=
  (splay_cancel_hidden 9 [.schedule (some 0) 1 3] (by simp [Op.Ok]) 1 0 rfl rfl (by decide)).1

end Ns2.Sched
