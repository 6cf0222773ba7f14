import Awds.Lib.StableQueue

/-!
# The scheduler of ns-2: `ns2-gea/ns-2/common/scheduler.{h,cc}`

| here | there |
| --- | --- |
| `Event`                  | `Event`: its address, `handler_`, `time_`, `uid_` |
| `Addr`                   | an event that belongs to the program (`TimerHandler::event_`), or a `new GeaNsEvent` |
| `St.mem`                 | what the program reads at the address of its event |
| `St.schedule`            | `Scheduler::schedule` (:83) |
| `St.insert`              | `Scheduler::instance().insert(e)` of a new event (`gea/ShadowEventHandler.cc:65`) |
| `St.cancel`              | `cancel(Event*)`, the part that is the same in each scheduler |
| `St.dispatch`            | one turn of the loop of `Scheduler::run` (:119), `Scheduler::dispatch` (:141) |
| `uidMax`                 | the largest `scheduler_uid_t` |
| `ListScheduler`          | `ListScheduler` (:302-350) |

The queue is a parameter (`Impl`): `insert`, `cancel`, `deque`, `head` and `lookup` are virtual. A
queued event is the record that stands at its address, so `==` of two pointers is `=` of two events.
What a handler does while it runs are further operations behind its `dispatch`. Times are in an ordered
group; the `double` of the source rounds `clock_ + delay`. `Event.seq` and `St.inserts` are ours: they
number the insertions. The command "cancel" `delete`s the event behind the `cancel` (:239), which is left out:
a program that goes on with an event it has cancelled by its uid is not the source's.
-/

namespace Ns2.Sched

open StableQueue

variable {ι η κ σ : Type*}

/-- Where an event is. An event `new`ly allocated is at an address no queued event has. -/
inductive Addr (ι : Type*) where
  | own (o : ι)
  | new (n : ℕ)
deriving DecidableEq, Repr

/-- `uid_` is positive while an event that was `schedule`d is in the queue, negative behind its dispatch or
cancel. It stays 0 for an event that was only `insert`ed. -/
structure Event (ι η κ : Type*) where
  obj : Addr ι
  handler : Option η
  time : κ
  uid : ℤ
  seq : ℕ
deriving DecidableEq, Repr

/-- The `abort`s of `scheduler.cc`. -/
inductive Failure where
  /-- :90 -/
  | nullHandler
  /-- :95 -/
  | invalidUid
  /-- :108 -/
  | uidExhausted
  /-- :145 -/
  | backwards
  /-- in the `cancel` of the queue -/
  | notFound
deriving DecidableEq, Repr

structure St (ι η κ σ : Type*) where
  queue : σ
  clock : κ
  /-- `uid_`, the next one -/
  uid : ℤ
  halted : Bool
  mem : ι → Event ι η κ
  inserts : ℕ

/-- What the program does with the scheduler. -/
inductive Op (ι η κ : Type*) where
  | schedule (h : Option η) (e : ι) (delay : κ)
  /-- a new event with this handler and time -/
  | insert (h : η) (time : κ)
  | cancel (e : ι)
  /-- the command "cancel", by uid -/
  | cancelUid (uid : ℤ)
  /-- one turn of `run` -/
  | dispatch
  | halt
  /-- the command "resume" -/
  | resume
  | head
  | lookup (uid : ℤ)

inductive Out (ι η κ : Type*) where
  | inserted (e : Event ι η κ)
  | cancelled (e : Event ι η κ)
  | dispatched (e : Event ι η κ)
  | found (e : Option (Event ι η κ))
  | done
deriving DecidableEq

section

variable [DecidableEq ι] [AddCommGroup κ] [LinearOrder κ] (Q : Impl (Event ι η κ) ℤ σ) (uidMax : ℤ)

/-- The constructors `Event()`, `Scheduler()`; `Scheduler::uid_` starts at 1. -/
def St.init : St ι η κ σ where
  queue := Q.init
  clock := 0
  uid := 1
  halted := false
  mem o := ⟨.own o, none, 0, 0, 0⟩
  inserts := 0

/-- Write at the address of an event; nobody reads a `GeaNsEvent` again. -/
def store (mem : ι → Event ι η κ) (e : Event ι η κ) : ι → Event ι η κ :=
  match e.obj with
  | .own o => Function.update mem o e
  | .new _ => mem

/-- The event goes into the queue. -/
def St.enqueue (s : St ι η κ σ) (e : Event ι η κ) : St ι η κ σ :=
  { s with queue := Q.insert e s.queue, mem := store s.mem e, inserts := s.inserts + 1 }

/-- `Scheduler::schedule`; a negative delay is only warned about. -/
def St.schedule (s : St ι η κ σ) (h : Option η) (o : ι) (delay : κ) : Except Failure (Out ι η κ × St ι η κ σ) :=
  if h.isNone then .error .nullHandler
  else if 0 < (s.mem o).uid then .error .invalidUid
  else if uidMax < s.uid then .error .uidExhausted
  else
    let e : Event ι η κ := ⟨.own o, h, s.clock + delay, s.uid, s.inserts⟩
    .ok (.inserted e, { s.enqueue Q e with uid := s.uid + 1 })

/-- `new GeaNsEvent`, `Scheduler::instance().insert(e)`: the uid stays 0, the time is not checked. -/
def St.insert (s : St ι η κ σ) (h : η) (time : κ) : Out ι η κ × St ι η κ σ :=
  let e : Event ι η κ := ⟨.new s.inserts, some h, time, 0, s.inserts⟩
  (.inserted e, s.enqueue Q e)

/-- `cancel(e)` of an event that is not in the queue does nothing. -/
def St.cancel (s : St ι η κ σ) (e : Event ι η κ) : Except Failure (Out ι η κ × St ι η κ σ) :=
  if e.uid ≤ 0 then .ok (.done, s)
  else match Q.cancel e s.queue with
    | none => .error .notFound
    | some q => .ok (.cancelled e, { s with queue := q, mem := store s.mem { e with uid := -e.uid } })

/-- One turn of the loop of `run`. -/
def St.dispatch (s : St ι η κ σ) : Except Failure (Out ι η κ × St ι η κ σ) :=
  if s.halted then .ok (.done, s)
  else match Q.deque s.queue with
    | none => .ok (.done, s)
    | some (e, q) =>
      if e.time < s.clock then .error .backwards
      else .ok (.dispatched e, { s with queue := q, clock := e.time, mem := store s.mem { e with uid := -e.uid } })

def step (s : St ι η κ σ) : Op ι η κ → Except Failure (Out ι η κ × St ι η κ σ)
  | .schedule h o delay => s.schedule Q uidMax h o delay
  | .insert h time => .ok (s.insert Q h time)
  | .cancel o => s.cancel Q (s.mem o)
  | .cancelUid u => match Q.lookup u s.queue with
    | none => .ok (.done, s)
    | some e => s.cancel Q e
  | .dispatch => s.dispatch Q
  | .halt => .ok (.done, { s with halted := true })
  | .resume => .ok (.done, { s with halted := false })
  | .head => .ok (.found (Q.head s.queue).1, { s with queue := (Q.head s.queue).2 })
  | .lookup u => .ok (.found (Q.lookup u s.queue), s)

/-- What comes out of a run, up to an `abort`. -/
def trace : St ι η κ σ → List (Op ι η κ) → List (Except Failure (Out ι η κ))
  | _, [] => []
  | s, o :: os => match step Q uidMax s o with
    | .error f => [.error f]
    | .ok (a, s') => .ok a :: trace s' os

/-- The state a run ends in, or aborts in. -/
def final : St ι η κ σ → List (Op ι η κ) → St ι η κ σ
  | s, [] => s
  | s, o :: os => match step Q uidMax s o with
    | .error _ => s
    | .ok (_, s') => final s' os

end

/-! ## `ListScheduler` -/

section

variable [LinearOrder κ] {e : Event ι η κ} {l : List (Event ι η κ)}

/-- `ListScheduler::insert` (:302): before the first event that is later. -/
def ListScheduler.insert (e : Event ι η κ) : List (Event ι η κ) → List (Event ι η κ)
  | [] => [e]
  | p :: queue => if e.time < p.time then e :: p :: queue else p :: insert e queue

theorem ListScheduler.insert_eq (e : Event ι η κ) (l : List (Event ι η κ)) :
    ListScheduler.insert e l = Multimap.insert Event.time e l := by
  induction l with
  | nil => rfl
  | cons p queue ih => simp only [ListScheduler.insert, Multimap.insert, ih]

variable [DecidableEq ι] [DecidableEq η]

/-- `ListScheduler::cancel` (:320): walk to the event, `abort` at the end of the list. -/
def ListScheduler.cancel (e : Event ι η κ) : List (Event ι η κ) → Option (List (Event ι η κ))
  | [] => none
  | p :: queue => if p = e then some queue else (cancel e queue).map (p :: ·)

def ListScheduler : Impl (Event ι η κ) ℤ (List (Event ι η κ)) where
  init := []
  insert := ListScheduler.insert
  cancel := ListScheduler.cancel
  deque
    | [] => none
    | e :: queue => some (e, queue)
  head queue := (queue.head?, queue)
  lookup uid queue := queue.find? (·.uid = uid)

theorem ListScheduler.cancel_eq (e : Event ι η κ) (l : List (Event ι η κ)) :
    ListScheduler.cancel e l = if e ∈ l then some (l.erase e) else none := by
  induction l with
  | nil => rfl
  | cons p queue ih =>
    by_cases h : p = e
    · subst h
      simp [ListScheduler.cancel]
    · have hne : e ≠ p := fun he => h he.symm
      have hmem : e ∈ p :: queue ↔ e ∈ queue := by simp [hne]
      rw [ListScheduler.cancel, if_neg h, ih, List.erase_cons_tail (by simpa using h)]
      by_cases hq : e ∈ queue
      · rw [if_pos hq, if_pos (hmem.2 hq)]; rfl
      · rw [if_neg hq, if_neg (fun hm => hq (hmem.1 hm))]; rfl

@[simp] theorem listScheduler_insert (e : Event ι η κ) (l : List (Event ι η κ)) :
    (ListScheduler : Impl (Event ι η κ) ℤ _).insert e l = Multimap.insert Event.time e l :=
  ListScheduler.insert_eq e l

theorem listScheduler_cancel (he : e ∈ l) :
    (ListScheduler : Impl (Event ι η κ) ℤ _).cancel e l = some (l.erase e) :=
  (ListScheduler.cancel_eq e l).trans (if_pos he)

@[simp] theorem listScheduler_deque (e : Event ι η κ) (l : List (Event ι η κ)) :
    (ListScheduler : Impl (Event ι η κ) ℤ _).deque (e :: l) = some (e, l) := rfl

@[simp] theorem listScheduler_lookup (uid : ℤ) (l : List (Event ι η κ)) :
    (ListScheduler : Impl (Event ι η κ) ℤ _).lookup uid l = l.find? (·.uid = uid) := rfl

/-- A queue does what a list in the order of (time, insertion) does. -/
abbrev Refines (Q : Impl (Event ι η κ) ℤ σ) (ok : Event ι η κ → Prop) (cap : ℕ)
    (R : ℕ → σ → List (Event ι η κ) → Prop) : Prop :=
  StableQueue.Refines Event.time Event.seq Event.uid Q ok cap R

/-- `ListScheduler` is the plain list. -/
theorem ListScheduler.refines (cap : ℕ) :
    Refines (ListScheduler : Impl (Event ι η κ) ℤ _) (fun _ => True) cap fun _ s l => s = l where
  init := rfl
  insert := by
    rintro n s l e rfl - - - -
    exact listScheduler_insert e s
  cancel := by
    rintro n s l e rfl - he
    exact ⟨s.erase e, listScheduler_cancel he, rfl⟩
  deque_nil := by rintro n s rfl; rfl
  deque_cons := by rintro n s e l rfl -; exact ⟨l, rfl, rfl⟩
  head := by rintro n s l rfl -; exact ⟨rfl, rfl⟩
  lookup := by rintro n s l u rfl - -; rfl

end

/-! ## What holds between operations -/

section

variable [LinearOrder κ] {mem : ι → Event ι η κ} {uid : ℤ} {n : ℕ} {l : List (Event ι η κ)} {e : Event ι η κ}

/-- `l` is what the queue holds. -/
structure Inv (mem : ι → Event ι η κ) (uid : ℤ) (n : ℕ) (l : List (Event ι η κ)) : Prop where
  stable : Stable Event.time Event.seq l
  stored : ∀ e ∈ l, ∀ o, e.obj = .own o → mem o = e ∧ 0 < e.uid ∧ e.uid < uid
  fresh : ∀ e ∈ l, ∀ m, e.obj = .new m → e.uid = 0
  queued : ∀ o, 0 < (mem o).uid → mem o ∈ l
  obj : ∀ o, (mem o).obj = .own o
  below : ∀ e ∈ l, e.seq < n
  named : ∀ a ∈ l, ∀ b ∈ l, 0 < a.uid → a.uid = b.uid → a = b
  uid_pos : 0 < uid

/-- Only an event that was `schedule`d can be cancelled. -/
theorem Inv.own (h : Inv mem uid n l) (he : e ∈ l) (hpos : 0 < e.uid) : ∃ o, e.obj = .own o ∧ mem o = e := by
  cases hobj : e.obj with
  | own o => exact ⟨o, rfl, (h.stored e he o hobj).1⟩
  | new m =>
    rw [h.fresh e he m hobj] at hpos
    exact absurd hpos (lt_irrefl 0)

theorem Inv.uid_lt (h : Inv mem uid n l) (he : e ∈ l) : e.uid < uid := by
  cases hobj : e.obj with
  | own o => exact (h.stored e he o hobj).2.2
  | new m =>
    rw [h.fresh e he m hobj]
    exact h.uid_pos

/-- A uid names one event in the queue; 0 is no uid. -/
theorem Inv.unique (h : Inv mem uid n l) {u : ℤ} (hu : u ≠ 0) : Unique Event.uid l u := by
  intro a ha b hb hau hbu
  have hpos : 0 < a.uid := by
    cases hobj : a.obj with
    | own o => exact (h.stored a ha o hobj).2.1
    | new m => exact absurd (hau.symm.trans (h.fresh a ha m hobj)) hu
  exact h.named a ha b hb hpos (hau.trans hbu.symm)

variable [DecidableEq ι]

omit [LinearOrder κ] in
@[simp] theorem store_own (mem : ι → Event ι η κ) (o : ι) (h : Option η) (t : κ) (u : ℤ) (m : ℕ) :
    store mem ⟨.own o, h, t, u, m⟩ = Function.update mem o ⟨.own o, h, t, u, m⟩ := rfl

omit [LinearOrder κ] in
@[simp] theorem store_new (mem : ι → Event ι η κ) (i : ℕ) (h : Option η) (t : κ) (u : ℤ) (m : ℕ) :
    store mem ⟨.new i, h, t, u, m⟩ = mem := rfl

/-- An event of the program that is not in the queue goes into it. -/
theorem Inv.schedule (h : Inv mem uid n l) (o : ι) (hd : Option η) (t : κ) (hfree : (mem o).uid ≤ 0) :
    Inv (Function.update mem o ⟨.own o, hd, t, uid, n⟩) (uid + 1) (n + 1)
      (Multimap.insert Event.time ⟨.own o, hd, t, uid, n⟩ l) := by
  have hobj : ∀ x ∈ l, x.obj ≠ .own o := by
    intro x hx hxo
    obtain ⟨hmem, hpos, -⟩ := h.stored x hx o hxo
    rw [hmem] at hfree
    exact absurd hpos hfree.not_gt
  refine ⟨h.stable.insert h.below, fun x hx p hp => ?_, fun x hx m hm => ?_, fun p hp => ?_, fun p => ?_, fun x hx => ?_,
    fun a ha b hb hpos hab => ?_, h.uid_pos.trans (lt_add_one uid)⟩
  · rcases Multimap.mem_insert.1 hx with rfl | hx
    · cases hp
      exact ⟨Function.update_self .., h.uid_pos, lt_add_one uid⟩
    · obtain ⟨hmem, hpos, hlt⟩ := h.stored x hx p hp
      have hpo : p ≠ o := fun heq => hobj x hx (heq ▸ hp)
      exact ⟨by rw [Function.update_of_ne hpo, hmem], hpos, hlt.trans (lt_add_one uid)⟩
  · rcases Multimap.mem_insert.1 hx with rfl | hx
    · cases hm
    · exact h.fresh x hx m hm
  · by_cases hpo : p = o
    · subst hpo
      rw [Function.update_self]
      exact Multimap.mem_insert.2 (.inl rfl)
    · rw [Function.update_of_ne hpo] at hp ⊢
      exact Multimap.mem_insert.2 (.inr (h.queued p hp))
  · by_cases hpo : p = o
    · subst hpo; rw [Function.update_self]
    · rw [Function.update_of_ne hpo, h.obj p]
  · rcases Multimap.mem_insert.1 hx with rfl | hx
    · exact Nat.lt_succ_self n
    · exact (h.below x hx).trans (Nat.lt_succ_self n)
  · rcases Multimap.mem_insert.1 ha with rfl | ha
    · rcases Multimap.mem_insert.1 hb with rfl | hb
      · rfl
      · exact absurd hab (h.uid_lt hb).ne'
    · rcases Multimap.mem_insert.1 hb with rfl | hb
      · exact absurd hab (h.uid_lt ha).ne
      · exact h.named a ha b hb hpos hab

omit [DecidableEq ι] in
/-- A new event goes into the queue. -/
theorem Inv.insert (h : Inv mem uid n l) (i : ℕ) (hd : Option η) (t : κ) :
    Inv mem uid (n + 1) (Multimap.insert Event.time ⟨.new i, hd, t, 0, n⟩ l) := by
  refine ⟨h.stable.insert h.below, fun x hx p hp => ?_, fun x hx m hm => ?_, fun p hp => ?_, h.obj, fun x hx => ?_,
    fun a ha b hb hpos hab => ?_, h.uid_pos⟩
  · rcases Multimap.mem_insert.1 hx with rfl | hx
    · cases hp
    · exact h.stored x hx p hp
  · rcases Multimap.mem_insert.1 hx with rfl | hx
    · rfl
    · exact h.fresh x hx m hm
  · exact Multimap.mem_insert.2 (.inr (h.queued p hp))
  · rcases Multimap.mem_insert.1 hx with rfl | hx
    · exact Nat.lt_succ_self n
    · exact (h.below x hx).trans (Nat.lt_succ_self n)
  · rcases Multimap.mem_insert.1 ha with rfl | ha
    · exact absurd hpos (lt_irrefl 0)
    · rcases Multimap.mem_insert.1 hb with rfl | hb
      · exact absurd hab hpos.ne'
      · exact h.named a ha b hb hpos hab

variable [DecidableEq η]

/-- An event leaves the queue. -/
theorem Inv.erase (h : Inv mem uid n l) (he : e ∈ l) : Inv (store mem { e with uid := -e.uid }) uid n (l.erase e) := by
  have hstable := h.stable.erase e
  have hfresh : ∀ x ∈ l.erase e, ∀ m, x.obj = .new m → x.uid = 0 := fun x hx => h.fresh x (List.mem_of_mem_erase hx)
  have hbelow : ∀ x ∈ l.erase e, x.seq < n := fun x hx => h.below x (List.mem_of_mem_erase hx)
  have hnamed : ∀ a ∈ l.erase e, ∀ b ∈ l.erase e, 0 < a.uid → a.uid = b.uid → a = b := fun a ha b hb =>
    h.named a (List.mem_of_mem_erase ha) b (List.mem_of_mem_erase hb)
  have hne : ∀ x ∈ l.erase e, x ≠ e := by rintro x hx rfl; exact h.stable.nodup.not_mem_erase hx
  obtain ⟨obj, hd, t, u, m⟩ := e
  cases obj with
  | new i =>
    have hu : u = 0 := h.fresh _ he i rfl
    refine ⟨hstable, fun x hx => h.stored x (List.mem_of_mem_erase hx), hfresh, fun p hp => ?_, h.obj, hbelow, hnamed,
      h.uid_pos⟩
    refine (List.mem_erase_of_ne fun heq => ?_).2 (h.queued p hp)
    rw [heq, hu] at hp
    exact absurd hp (lt_irrefl 0)
  | own o =>
    obtain ⟨hmem, hpos, -⟩ := h.stored _ he o rfl
    refine ⟨hstable, fun x hx p hp => ?_, hfresh, fun p hp => ?_, fun p => ?_, hbelow, hnamed, h.uid_pos⟩
    · have hstored := h.stored x (List.mem_of_mem_erase hx) p hp
      have hpo : p ≠ o := by
        rintro rfl
        exact hne x hx (hstored.1.symm.trans hmem)
      rw [store_own, Function.update_of_ne hpo]
      exact hstored
    · rw [store_own] at hp ⊢
      by_cases hpo : p = o
      · subst hpo
        rw [Function.update_self] at hp
        exact absurd hp (by simpa using hpos.le)
      · rw [Function.update_of_ne hpo] at hp ⊢
        refine (List.mem_erase_of_ne fun heq => hpo ?_).2 (h.queued p hp)
        have hobj := h.obj p
        rw [heq] at hobj
        cases hobj
        rfl
    · rw [store_own]
      by_cases hpo : p = o
      · subst hpo; rw [Function.update_self]
      · rw [Function.update_of_ne hpo, h.obj p]

omit [DecidableEq ι] [DecidableEq η] in
theorem inv_init [Zero κ] : Inv (fun o => (⟨.own o, none, 0, 0, 0⟩ : Event ι η κ)) 1 0 [] where
  stable := .nil
  stored := by simp
  fresh := by simp
  queued o ho := absurd ho (lt_irrefl 0)
  obj _ := rfl
  below := by simp
  named := by simp
  uid_pos := one_pos

end

/-! ## Every implementation of the queue gives the run of `ListScheduler` -/

section

variable [AddCommGroup κ]

/-- What a run keeps to: times in `C`, delays in `D`. With new events (`direct`) 0 is no uid to look for. -/
def Op.Ok (C D : κ → Prop) (direct : Prop) : Op ι η κ → Prop
  | .schedule _ _ delay => D delay
  | .insert _ time => direct ∧ C time
  | .cancelUid u | .lookup u => direct → u ≠ 0
  | _ => True

/-- The events of such a run: with `schedule` alone they are numbered by their uids. -/
def Event.Ok (C : κ → Prop) (direct : Prop) (e : Event ι η κ) : Prop := C e.time ∧ (direct ∨ e.uid = e.seq + 1)

omit [AddCommGroup κ] in
def Op.inserts : Op ι η κ → ℕ
  | .schedule .. | .insert .. => 1
  | _ => 0

variable [DecidableEq ι] [DecidableEq η] [LinearOrder κ] {Q : Impl (Event ι η κ) ℤ σ} {uidMax : ℤ}
  {C D : κ → Prop} {direct : Prop} {cap : ℕ} {R : ℕ → σ → List (Event ι η κ) → Prop}

/-- `t` runs on the list that `s` holds. -/
structure Sim (C : κ → Prop) (direct : Prop) (R : ℕ → σ → List (Event ι η κ) → Prop) (s : St ι η κ σ)
    (t : St ι η κ (List (Event ι η κ))) : Prop where
  queue : R t.inserts s.queue t.queue
  clock : s.clock = t.clock
  uid : s.uid = t.uid
  halted : s.halted = t.halted
  mem : s.mem = t.mem
  inserts : s.inserts = t.inserts
  inv : Inv t.mem t.uid t.inserts t.queue
  now : C t.clock
  ok : ∀ e ∈ t.queue, e.Ok C direct
  numbered : direct ∨ t.uid = t.inserts + 1

/-- Both steps come to the same, or both abort for the same reason. -/
def Agree (P : St ι η κ σ → St ι η κ (List (Event ι η κ)) → Prop) :
    Except Failure (Out ι η κ × St ι η κ σ) → Except Failure (Out ι η κ × St ι η κ (List (Event ι η κ))) → Prop
  | .ok (a, s), .ok (b, t) => a = b ∧ P s t
  | .error f, .error g => f = g
  | _, _ => False

variable {s : St ι η κ σ} {t : St ι η κ (List (Event ι η κ))}

omit [AddCommGroup κ] [DecidableEq ι] [DecidableEq η] [LinearOrder κ] in
theorem Agree.cases {P : St ι η κ σ → St ι η κ (List (Event ι η κ)) → Prop} {x : Except Failure (Out ι η κ × St ι η κ σ)}
    {y : Except Failure (Out ι η κ × St ι η κ (List (Event ι η κ)))} (h : Agree P x y) :
    (∃ a s t, x = .ok (a, s) ∧ y = .ok (a, t) ∧ P s t) ∨ ∃ f, x = .error f ∧ y = .error f := by
  rcases x with f | r
  · rcases y with g | r'
    · obtain rfl : f = g := h
      exact .inr ⟨f, rfl, rfl⟩
    · cases h
  · rcases y with g | r'
    · cases h
    · obtain ⟨a, s⟩ := r
      obtain ⟨b, t⟩ := r'
      obtain ⟨rfl, hP⟩ : a = b ∧ P s t := h
      exact .inl ⟨a, s, t, rfl, rfl, hP⟩

/-- Both ran on, and made `k` insertions. -/
def After (C : κ → Prop) (direct : Prop) (R : ℕ → σ → List (Event ι η κ) → Prop)
    (t : St ι η κ (List (Event ι η κ))) (k : ℕ) (s' : St ι η κ σ) (t' : St ι η κ (List (Event ι η κ))) : Prop :=
  Sim C direct R s' t' ∧ t'.inserts = t.inserts + k

theorem Sim.schedule (hQ : Refines Q (Event.Ok C direct) cap R) (hn : t.inserts < cap)
    (h : Sim C direct R s t) (hd : Option η) (o : ι) {delay : κ} (hC : C (t.clock + delay)) :
    Agree (After C direct R t 1) (s.schedule Q uidMax hd o delay) (t.schedule ListScheduler uidMax hd o delay) := by
  simp only [St.schedule, h.mem, h.uid, h.clock, h.inserts]
  split_ifs with hnull hvalid hmax
  · rfl
  · rfl
  · rfl
  · have hok : Event.Ok C direct (⟨.own o, hd, t.clock + delay, t.uid, t.inserts⟩ : Event ι η κ) := ⟨hC, h.numbered⟩
    refine ⟨rfl, ⟨?_, h.clock, rfl, h.halted, ?_, ?_, ?_, h.now, fun e he => ?_, ?_⟩, rfl⟩
    · simp only [St.enqueue, listScheduler_insert]
      exact hQ.insert h.queue h.inv.stable hok h.inv.below hn
    · simp only [St.enqueue, h.mem]
    · simp only [St.enqueue, h.inserts]
    · simp only [St.enqueue, listScheduler_insert, store_own]
      exact h.inv.schedule o hd _ (not_lt.1 hvalid)
    · simp only [St.enqueue, listScheduler_insert] at he
      rcases Multimap.mem_insert.1 he with rfl | he
      · exact hok
      · exact h.ok e he
    · refine h.numbered.imp_right fun hu => ?_
      simp only [St.enqueue, hu]
      push_cast
      rfl

omit [AddCommGroup κ] in
theorem Sim.insert (hQ : Refines Q (Event.Ok C direct) cap R) (hn : t.inserts < cap) (h : Sim C direct R s t)
    (hd : η) {time : κ} (hC : C time) (hdirect : direct) :
    Agree (After C direct R t 1) (.ok (s.insert Q hd time)) (.ok (t.insert ListScheduler hd time)) := by
  simp only [St.insert, h.inserts]
  have hok : Event.Ok C direct (⟨.new t.inserts, some hd, time, 0, t.inserts⟩ : Event ι η κ) := ⟨hC, .inl hdirect⟩
  refine ⟨rfl, ⟨?_, h.clock, h.uid, h.halted, ?_, ?_, ?_, h.now, fun e he => ?_, .inl hdirect⟩, rfl⟩
  · simp only [St.enqueue, listScheduler_insert]
    exact hQ.insert h.queue h.inv.stable hok h.inv.below hn
  · simp only [St.enqueue, store_new, h.mem]
  · simp only [St.enqueue, h.inserts]
  · simp only [St.enqueue, listScheduler_insert, store_new]
    exact h.inv.insert _ _ _
  · simp only [St.enqueue, listScheduler_insert] at he
    rcases Multimap.mem_insert.1 he with rfl | he
    · exact hok
    · exact h.ok e he

omit [AddCommGroup κ] [DecidableEq ι] [DecidableEq η] in
theorem Sim.stay (h : Sim C direct R s t) : After C direct R t 0 s t := ⟨h, rfl⟩

omit [AddCommGroup κ] [DecidableEq ι] [DecidableEq η] in
/-- A uid that is looked for names one event in the queue. -/
theorem Sim.unique (h : Sim C direct R s t) {u : ℤ} (hu : direct → u ≠ 0) : Unique Event.uid t.queue u := by
  intro a ha b hb hau hbu
  have hne : u ≠ 0 := by
    rcases (h.ok a ha).2 with hdirect | hseq
    · exact hu hdirect
    · omega
  exact h.inv.unique hne a ha b hb hau hbu

omit [AddCommGroup κ] in
theorem Sim.cancel (hQ : Refines Q (Event.Ok C direct) cap R) (h : Sim C direct R s t) {e : Event ι η κ}
    (he : 0 < e.uid → e ∈ t.queue) : Agree (After C direct R t 0) (s.cancel Q e) (t.cancel ListScheduler e) := by
  by_cases huid : e.uid ≤ 0
  · simp only [St.cancel, if_pos huid]
    exact ⟨rfl, h.stay⟩
  · have hmem : e ∈ t.queue := he (not_le.1 huid)
    obtain ⟨q, hq, hR⟩ := hQ.cancel h.queue h.inv.stable hmem
    simp only [St.cancel, if_neg huid, hq, listScheduler_cancel hmem]
    exact ⟨rfl, ⟨hR, h.clock, h.uid, h.halted, by simp only [h.mem], h.inserts, h.inv.erase hmem, h.now,
      fun x hx => h.ok x (List.mem_of_mem_erase hx), h.numbered⟩, rfl⟩

omit [AddCommGroup κ] in
theorem Sim.dispatch (hQ : Refines Q (Event.Ok C direct) cap R) (h : Sim C direct R s t) :
    Agree (After C direct R t 0) (s.dispatch Q) (t.dispatch ListScheduler) := by
  obtain ⟨queue, clock, uid, halted, mem, inserts⟩ := t
  cases halted with
  | true =>
    simp only [St.dispatch, h.halted, if_true]
    exact ⟨rfl, h.stay⟩
  | false =>
    cases queue with
    | nil =>
      simp only [St.dispatch, h.halted, Bool.false_eq_true, if_false, hQ.deque_nil h.queue]
      exact ⟨rfl, h.stay⟩
    | cons e l =>
      obtain ⟨q, hq, hR⟩ := hQ.deque_cons h.queue h.inv.stable
      simp only [St.dispatch, h.halted, Bool.false_eq_true, if_false, hq, h.clock, listScheduler_deque]
      split_ifs with hback
      · rfl
      · have he : e ∈ e :: l := List.mem_cons_self
        have hinv := h.inv.erase he
        rw [List.erase_cons_head] at hinv
        exact ⟨rfl, ⟨hR, rfl, h.uid, rfl, by simp only [h.mem], h.inserts, hinv, (h.ok e he).1,
          fun x hx => h.ok x (List.mem_cons_of_mem e hx), h.numbered⟩, rfl⟩

/-- The step lemma. -/
theorem Sim.step (hQ : Refines Q (Event.Ok C direct) cap R) (hC : ∀ c d, C c → D d → C (c + d))
    (h : Sim C direct R s t) {op : Op ι η κ} (hop : op.Ok C D direct) (hn : t.inserts + op.inserts ≤ cap) :
    Agree (After C direct R t op.inserts) (step Q uidMax s op) (step ListScheduler uidMax t op) := by
  cases op with
  | schedule hd o d => exact h.schedule hQ hn hd o (hC _ _ h.now hop)
  | insert hd time => exact h.insert hQ hn hd hop.2 hop.1
  | cancel o =>
    simp only [Sched.step, h.mem]
    exact h.cancel hQ fun hpos => h.inv.queued o hpos
  | cancelUid u =>
    simp only [Sched.step, hQ.lookup h.queue h.inv.stable (h.unique hop), listScheduler_lookup]
    cases hfind : t.queue.find? (·.uid = u) with
    | none => exact ⟨rfl, h.stay⟩
    | some e => exact h.cancel hQ fun _ => List.mem_of_find?_eq_some hfind
  | dispatch => exact h.dispatch hQ
  | halt => exact ⟨rfl, ⟨h.queue, h.clock, h.uid, rfl, h.mem, h.inserts, h.inv, h.now, h.ok, h.numbered⟩, rfl⟩
  | resume => exact ⟨rfl, ⟨h.queue, h.clock, h.uid, rfl, h.mem, h.inserts, h.inv, h.now, h.ok, h.numbered⟩, rfl⟩
  | head =>
    obtain ⟨hhead, hR⟩ := hQ.head h.queue h.inv.stable
    simp only [Sched.step, hhead]
    exact ⟨rfl, ⟨hR, h.clock, h.uid, h.halted, h.mem, h.inserts, h.inv, h.now, h.ok, h.numbered⟩, rfl⟩
  | lookup u =>
    simp only [Sched.step, hQ.lookup h.queue h.inv.stable (h.unique hop)]
    exact ⟨rfl, h.stay⟩

/-- The insertions of a run. -/
def insertions (ops : List (Op ι η κ)) : ℕ := (ops.map Op.inserts).sum

/-- The run lemma. -/
theorem Sim.run (hQ : Refines Q (Event.Ok C direct) cap R) (hC : ∀ c d, C c → D d → C (c + d)) :
    ∀ (ops : List (Op ι η κ)) {s : St ι η κ σ} {t : St ι η κ (List (Event ι η κ))}, Sim C direct R s t →
      (∀ op ∈ ops, op.Ok C D direct) → t.inserts + insertions ops ≤ cap →
      trace Q uidMax s ops = trace ListScheduler uidMax t ops ∧
        Sim C direct R (final Q uidMax s ops) (final ListScheduler uidMax t ops)
  | [], _, _, h, _, _ => ⟨rfl, h⟩
  | op :: ops, s, t, h, hops, hn => by
    have hsum : insertions (op :: ops) = op.inserts + insertions ops := rfl
    have hstep : Agree (After C direct R t op.inserts) (Sched.step Q uidMax s op) (Sched.step ListScheduler uidMax t op) :=
      h.step hQ hC (hops op List.mem_cons_self) (by omega)
    simp only [Sched.trace, final]
    rcases hstep.cases with ⟨a, s', t', hs, ht, hsim, hins⟩ | ⟨f, hs, ht⟩
    · rw [hs, ht]
      obtain ⟨htr, hfin⟩ := Sim.run hQ hC ops hsim (fun o ho => hops o (List.mem_cons_of_mem op ho)) (by omega)
      exact ⟨congrArg (Except.ok a :: ·) htr, hfin⟩
    · rw [hs, ht]
      exact ⟨rfl, h⟩

theorem Sim.init (hQ : Refines Q (Event.Ok C direct) cap R) (h0 : C 0) :
    Sim C direct R (St.init Q) (St.init (ListScheduler : Impl (Event ι η κ) ℤ _)) :=
  ⟨hQ.init, rfl, rfl, rfl, rfl, rfl, inv_init, h0, by simp [St.init, ListScheduler], .inr rfl⟩

/-- A queue that refines the list gives the run of `ListScheduler`: the same events are dispatched in
the same order, every cancel and every lookup comes to the same. -/
theorem trace_eq (hQ : Refines Q (Event.Ok C direct) cap R) (h0 : C 0) (hC : ∀ c d, C c → D d → C (c + d))
    (ops : List (Op ι η κ)) (hops : ∀ op ∈ ops, op.Ok C D direct) (hn : insertions ops ≤ cap) :
    trace Q uidMax (St.init Q) ops = trace ListScheduler uidMax (St.init ListScheduler) ops :=
  ((Sim.init hQ h0).run hQ hC ops hops ((Nat.zero_add _).trans_le hn)).1

end

/-! ## What a run does with the events -/

section

/-- The events a trace inserts, dispatches and cancels. -/
def Out.inserted? : Out ι η κ → Option (Event ι η κ)
  | .inserted e => some e
  | _ => none

def Out.dispatched? : Out ι η κ → Option (Event ι η κ)
  | .dispatched e => some e
  | _ => none

def Out.cancelled? : Out ι η κ → Option (Event ι η κ)
  | .cancelled e => some e
  | _ => none

def outs (tr : List (Except Failure (Out ι η κ))) : List (Out ι η κ) :=
  tr.filterMap fun
    | .ok a => some a
    | .error _ => none

def insertedOf (tr : List (Except Failure (Out ι η κ))) : List (Event ι η κ) := (outs tr).filterMap Out.inserted?
def dispatchedOf (tr : List (Except Failure (Out ι η κ))) : List (Event ι η κ) := (outs tr).filterMap Out.dispatched?
def cancelledOf (tr : List (Except Failure (Out ι η κ))) : List (Event ι η κ) := (outs tr).filterMap Out.cancelled?

@[simp] theorem outs_nil : outs ([] : List (Except Failure (Out ι η κ))) = [] := rfl

@[simp] theorem outs_ok (a : Out ι η κ) (tr : List (Except Failure (Out ι η κ))) : outs (.ok a :: tr) = a :: outs tr :=
  rfl

@[simp] theorem outs_error (f : Failure) (tr : List (Except Failure (Out ι η κ))) : outs (.error f :: tr) = outs tr :=
  rfl

theorem filterMap_cons_toList {α β : Type*} (f : α → Option β) (a : α) (l : List α) :
    (a :: l).filterMap f = (f a).toList ++ l.filterMap f := by
  cases h : f a with
  | none => simp [h]
  | some b => simp [h]

end

section

variable [DecidableEq ι] [DecidableEq η] [AddCommGroup κ] [LinearOrder κ]

/-- The order of dispatch: by time, equal times in order of insertion. -/
abbrev order (e : Event ι η κ) : κ ×ₗ ℕ := rank Event.time Event.seq e

/-- Where the events are: `S` were inserted, `P` dispatched, `X` cancelled. -/
structure History (s : St ι η κ (List (Event ι η κ))) (S P X : List (Event ι η κ)) : Prop where
  inv : Inv s.mem s.uid s.inserts s.queue
  sorted : P.Pairwise (order · < order ·)
  behind : ∀ d ∈ P, ∀ y ∈ s.queue, d.time ≤ y.time → order d < order y
  past : ∀ d ∈ P, d.time ≤ s.clock ∧ d.seq < s.inserts
  conserved : S.Perm (P ++ X ++ s.queue)
  numbered : S.Pairwise (·.seq < ·.seq)
  below : ∀ e ∈ S, e.seq < s.inserts

variable {s s' : St ι η κ (List (Event ι η κ))} {S P X : List (Event ι η κ)} {e : Event ι η κ}

omit [DecidableEq ι] [DecidableEq η] [AddCommGroup κ] in
/-- `halt`, `resume`, a lookup. -/
theorem History.same (h : History s S P X) (hqueue : s'.queue = s.queue) (hclock : s'.clock = s.clock)
    (huid : s'.uid = s.uid) (hmem : s'.mem = s.mem) (hinserts : s'.inserts = s.inserts) : History s' S P X := by
  obtain ⟨queue, clock, uid, halted, mem, inserts⟩ := s'
  obtain rfl : queue = s.queue := hqueue
  obtain rfl : clock = s.clock := hclock
  obtain rfl : uid = s.uid := huid
  obtain rfl : mem = s.mem := hmem
  obtain rfl : inserts = s.inserts := hinserts
  exact ⟨h.inv, h.sorted, h.behind, h.past, h.conserved, h.numbered, h.below⟩

omit [DecidableEq ι] [DecidableEq η] [AddCommGroup κ] in
/-- An event with the next number is inserted. -/
theorem History.insert (h : History s S P X) (hqueue : s'.queue = Multimap.insert Event.time e s.queue)
    (hinv : Inv s'.mem s'.uid s'.inserts s'.queue) (hclock : s'.clock = s.clock) (hinserts : s'.inserts = s.inserts + 1)
    (hseq : e.seq = s.inserts) : History s' (S ++ [e]) P X := by
  refine ⟨hinv, h.sorted, fun d hd y hy hle => ?_, fun d hd => ?_, ?_, ?_, fun x hx => ?_⟩
  · rw [hqueue] at hy
    rcases Multimap.mem_insert.1 hy with rfl | hy
    · have hnum : d.seq < y.seq := hseq ▸ (h.past d hd).2
      rcases hle.lt_or_eq with hlt | heq
      · exact rank_lt.2 (.inl hlt)
      · exact rank_lt.2 (.inr ⟨heq, hnum⟩)
    · exact h.behind d hd y hy hle
  · rw [hclock, hinserts]
    exact ⟨(h.past d hd).1, (h.past d hd).2.trans (Nat.lt_succ_self _)⟩
  · have hins : (Multimap.insert Event.time e s.queue).Perm (s.queue ++ [e]) :=
      (Multimap.insert_perm Event.time e s.queue).trans (List.perm_append_singleton e s.queue).symm
    calc (S ++ [e]).Perm (P ++ X ++ s.queue ++ [e]) := h.conserved.append_right [e]
      _ = P ++ X ++ (s.queue ++ [e]) := by rw [List.append_assoc]
      _ |>.Perm (P ++ X ++ s'.queue) := hqueue ▸ hins.symm.append_left _
  · refine List.pairwise_append.2 ⟨h.numbered, List.pairwise_singleton _ _, fun x hx y hy => ?_⟩
    rw [List.mem_singleton.1 hy, hseq]
    exact h.below x hx
  · rw [hinserts]
    rcases List.mem_append.1 hx with hx | hx
    · exact (h.below x hx).trans (Nat.lt_succ_self _)
    · rw [List.mem_singleton.1 hx, hseq]
      exact Nat.lt_succ_self _

omit [AddCommGroup κ] in
theorem History.cancel (h : History s S P X) (he : e ∈ s.queue) :
    History { s with queue := s.queue.erase e, mem := store s.mem { e with uid := -e.uid } } S P (X ++ [e]) where
  inv := h.inv.erase he
  sorted := h.sorted
  behind d hd y hy := h.behind d hd y (List.mem_of_mem_erase hy)
  past := h.past
  conserved := by
    refine h.conserved.trans ?_
    rw [List.append_assoc, List.append_assoc, List.append_assoc]
    exact ((List.perm_cons_erase he).append_left X).append_left P
  numbered := h.numbered
  below := h.below

omit [AddCommGroup κ] in
theorem History.dispatch {l : List (Event ι η κ)} (h : History s S P X) (hqueue : s.queue = e :: l)
    (hclock : s.clock ≤ e.time) :
    History { s with queue := l, clock := e.time, mem := store s.mem { e with uid := -e.uid } } S (P ++ [e]) X := by
  have he : e ∈ s.queue := hqueue ▸ List.mem_cons_self
  have hsub : ∀ y ∈ l, y ∈ s.queue := fun y hy => hqueue ▸ List.mem_cons_of_mem e hy
  have hinv := h.inv.erase he
  have hfirst : ∀ y ∈ l, order e < order y := by
    have hstable := h.inv.stable
    rw [hqueue] at hstable
    exact hstable.head_lt
  rw [hqueue, List.erase_cons_head] at hinv
  refine ⟨hinv, ?_, fun d hd y hy hle => ?_, fun d hd => ?_, ?_, h.numbered, h.below⟩
  · refine List.pairwise_append.2 ⟨h.sorted, List.pairwise_singleton _ _, fun d hd y hy => ?_⟩
    rw [List.mem_singleton.1 hy]
    exact h.behind d hd e he ((h.past d hd).1.trans hclock)
  · rcases List.mem_append.1 hd with hd | hd
    · exact h.behind d hd y (hsub y hy) hle
    · rw [List.mem_singleton.1 hd]
      exact hfirst y hy
  · rcases List.mem_append.1 hd with hd | hd
    · exact ⟨(h.past d hd).1.trans hclock, (h.past d hd).2⟩
    · rw [List.mem_singleton.1 hd]
      exact ⟨le_rfl, h.inv.below e he⟩
  · refine h.conserved.trans ?_
    rw [hqueue, List.append_assoc, List.append_assoc, List.append_assoc, List.singleton_append]
    exact List.perm_middle.append_left P

theorem History.init : History (St.init (ListScheduler : Impl (Event ι η κ) ℤ _)) [] [] [] where
  inv := inv_init
  sorted := .nil
  behind := by simp
  past := by simp
  conserved := by simp [St.init, ListScheduler]
  numbered := .nil
  below := by simp

theorem History.step (h : History s S P X) (uidMax : ℤ) (op : Op ι η κ) :
    match step ListScheduler uidMax s op with
    | .ok (a, s') => History s' (S ++ a.inserted?.toList) (P ++ a.dispatched?.toList) (X ++ a.cancelled?.toList)
    | .error f => f ≠ .notFound := by
  have hsame : ∀ {s' : St ι η κ (List (Event ι η κ))}, s'.queue = s.queue → s'.clock = s.clock → s'.uid = s.uid →
      s'.mem = s.mem → s'.inserts = s.inserts → History s' (S ++ []) (P ++ []) (X ++ []) := by
    intro s' h1 h2 h3 h4 h5
    simpa using h.same h1 h2 h3 h4 h5
  have hcancel : ∀ e : Event ι η κ, (0 < e.uid → e ∈ s.queue) → match s.cancel ListScheduler e with
      | .ok (a, s') => History s' (S ++ a.inserted?.toList) (P ++ a.dispatched?.toList) (X ++ a.cancelled?.toList)
      | .error f => f ≠ Failure.notFound := by
    intro e he
    by_cases huid : e.uid ≤ 0
    · simp only [St.cancel, if_pos huid]
      exact hsame rfl rfl rfl rfl rfl
    · have hmem : e ∈ s.queue := he (not_le.1 huid)
      simp only [St.cancel, if_neg huid, listScheduler_cancel hmem]
      simpa [Out.inserted?, Out.dispatched?, Out.cancelled?] using h.cancel hmem
  cases op with
  | schedule hd o d =>
    simp only [Sched.step, St.schedule]
    split_ifs with hnull hvalid hmax
    · simp
    · simp
    · simp
    · have hinv := h.inv.schedule o hd (s.clock + d) (not_lt.1 hvalid)
      have hnew : History
          { s.enqueue ListScheduler ⟨.own o, hd, s.clock + d, s.uid, s.inserts⟩ with uid := s.uid + 1 }
          (S ++ [⟨.own o, hd, s.clock + d, s.uid, s.inserts⟩]) P X := by
        refine h.insert (listScheduler_insert _ _) ?_ rfl rfl rfl
        simpa only [St.enqueue, listScheduler_insert, store_own] using hinv
      simpa [Out.inserted?, Out.dispatched?, Out.cancelled?] using hnew
  | insert hd time =>
    simp only [Sched.step, St.insert]
    have hinv := h.inv.insert s.inserts (some hd) time
    have hnew : History (s.enqueue ListScheduler ⟨.new s.inserts, some hd, time, 0, s.inserts⟩)
        (S ++ [⟨.new s.inserts, some hd, time, 0, s.inserts⟩]) P X := by
      refine h.insert (listScheduler_insert _ _) ?_ rfl rfl rfl
      simpa only [St.enqueue, listScheduler_insert, store_new] using hinv
    simpa [Out.inserted?, Out.dispatched?, Out.cancelled?] using hnew
  | cancel o => exact hcancel _ fun hpos => h.inv.queued o hpos
  | cancelUid u =>
    simp only [Sched.step, listScheduler_lookup]
    cases hfind : s.queue.find? (·.uid = u) with
    | none => exact hsame rfl rfl rfl rfl rfl
    | some e => exact hcancel e fun _ => List.mem_of_find?_eq_some hfind
  | dispatch =>
    simp only [Sched.step, St.dispatch]
    by_cases hhalt : s.halted
    · rw [if_pos hhalt]
      exact hsame rfl rfl rfl rfl rfl
    · rw [if_neg hhalt]
      cases hqueue : s.queue with
      | nil => exact hsame rfl rfl rfl rfl rfl
      | cons e l =>
        simp only [listScheduler_deque]
        split_ifs with hback
        · simp
        · simpa [Out.inserted?, Out.dispatched?, Out.cancelled?] using h.dispatch hqueue (not_lt.1 hback)
  | halt => exact hsame rfl rfl rfl rfl rfl
  | resume => exact hsame rfl rfl rfl rfl rfl
  | head => exact hsame rfl rfl rfl rfl rfl
  | lookup u => exact hsame rfl rfl rfl rfl rfl

/-- The run lemma. -/
theorem History.run (uidMax : ℤ) : ∀ (ops : List (Op ι η κ)) {s : St ι η κ (List (Event ι η κ))}
    {S P X : List (Event ι η κ)}, History s S P X →
      History (final ListScheduler uidMax s ops) (S ++ insertedOf (trace ListScheduler uidMax s ops))
        (P ++ dispatchedOf (trace ListScheduler uidMax s ops)) (X ++ cancelledOf (trace ListScheduler uidMax s ops)) ∧
      .error .notFound ∉ trace ListScheduler uidMax s ops
  | [], s, S, P, X, h => by
    simpa [final, Sched.trace, insertedOf, dispatchedOf, cancelledOf] using h
  | op :: ops, s, S, P, X, h => by
    have hstep := h.step uidMax op
    simp only [final, Sched.trace]
    cases hs : Sched.step ListScheduler uidMax s op with
    | error f =>
      rw [hs] at hstep
      refine ⟨by simpa [insertedOf, dispatchedOf, cancelledOf] using h, fun hmem => hstep ?_⟩
      have hf : Failure.notFound = f := by simpa using hmem
      exact hf.symm
    | ok r =>
      obtain ⟨a, s'⟩ := r
      rw [hs] at hstep
      obtain ⟨hhist, hfail⟩ := History.run uidMax ops hstep
      refine ⟨?_, fun hmem => hfail (by simpa using hmem)⟩
      simpa only [insertedOf, dispatchedOf, cancelledOf, outs_ok, filterMap_cons_toList, List.append_assoc] using hhist

omit [DecidableEq ι] [DecidableEq η] [AddCommGroup κ] in
theorem History.mem_queue (h : History s S P X) (he : e ∈ S) (hP : e ∉ P) (hX : e ∉ X) : e ∈ s.queue := by
  have hmem := h.conserved.mem_iff.1 he
  rw [List.mem_append, List.mem_append] at hmem
  exact hmem.resolve_left (not_or.2 ⟨hP, hX⟩)

/-- A dispatch takes the first event. -/
theorem History.dispatch_first (h : History s S P X) {uidMax : ℤ} {op : Op ι η κ} {d : Event ι η κ}
    (hstep : Sched.step ListScheduler uidMax s op = .ok (.dispatched d, s')) (he : e ∈ s.queue) (hne : e ≠ d) :
    order d < order e := by
  have hcancel : ∀ x : Event ι η κ, s.cancel ListScheduler x ≠ .ok (.dispatched d, s') := by
    intro x
    simp only [St.cancel]
    split_ifs
    · simp
    · cases (ListScheduler : Impl (Event ι η κ) ℤ _).cancel x s.queue <;> simp
  have hdispatch : s.dispatch ListScheduler = .ok (.dispatched d, s') := by
    cases op with
    | dispatch => exact hstep
    | cancel o => exact absurd hstep (hcancel _)
    | cancelUid u =>
      simp only [Sched.step, listScheduler_lookup] at hstep
      cases hfind : s.queue.find? (·.uid = u) with
      | none => simp [hfind] at hstep
      | some x =>
        rw [hfind] at hstep
        exact absurd hstep (hcancel x)
    | schedule hd o delay =>
      simp only [Sched.step, St.schedule] at hstep
      split_ifs at hstep
      cases hstep
    | insert hd time => cases hstep
    | halt => cases hstep
    | resume => cases hstep
    | head => cases hstep
    | lookup u => cases hstep
  by_cases hhalt : s.halted
  · simp [St.dispatch, if_pos hhalt] at hdispatch
  · cases hqueue : s.queue with
    | nil => simp [St.dispatch, hqueue, ListScheduler] at hdispatch
    | cons x l =>
      simp only [St.dispatch, if_neg hhalt, hqueue, listScheduler_deque] at hdispatch
      by_cases hback : x.time < s.clock
      · simp [if_pos hback] at hdispatch
      · simp only [if_neg hback, Except.ok.injEq, Prod.mk.injEq, Out.dispatched.injEq] at hdispatch
        have hstable := h.inv.stable
        rw [hqueue] at hstable he
        rw [← hdispatch.1] at hne ⊢
        exact hstable.head_lt e ((List.mem_cons.1 he).resolve_left hne)

omit [DecidableEq η] in
/-- Where an output of a run comes from. -/
theorem trace_split {Q : Impl (Event ι η κ) ℤ σ} {uidMax : ℤ} {a : Out ι η κ} {post : List (Except Failure (Out ι η κ))} :
    ∀ (pre : List (Except Failure (Out ι η κ))) (ops : List (Op ι η κ)) (s : St ι η κ σ),
      Sched.trace Q uidMax s ops = pre ++ .ok a :: post →
      ∃ before op s', Sched.trace Q uidMax s before = pre ∧ Sched.step Q uidMax (final Q uidMax s before) op = .ok (a, s')
  | pre, [], s, h => by simp [Sched.trace] at h
  | pre, op :: ops, s, h => by
    simp only [Sched.trace] at h
    cases hs : Sched.step Q uidMax s op with
    | error f =>
      -- an abort ends the run
      rw [hs] at h
      cases pre with
      | nil => cases h
      | cons x pre => simp at h
    | ok r =>
      obtain ⟨b, s'⟩ := r
      rw [hs] at h
      cases pre with
      | nil =>
        obtain rfl : b = a := by simpa using (List.cons.inj h).1
        exact ⟨[], op, s', rfl, hs⟩
      | cons x pre =>
        obtain ⟨rfl, htail⟩ := List.cons.inj h
        obtain ⟨before, op', s'', hpre, hstep⟩ := trace_split pre ops s' htail
        refine ⟨op :: before, op', s'', ?_, ?_⟩
        · simp only [Sched.trace, hs, hpre]
        · simpa only [final, hs] using hstep

/-- Whatever the program does, events come out in the order of (time, insertion), each at most once and
never behind its cancel, and no `cancel` misses its event. None is passed over: what is dispatched is the
first of the events that are pending then, and an event that is left over and comes before one that was
dispatched was inserted behind that dispatch, into the past. -/
theorem dispatched_in_order {Q : Impl (Event ι η κ) ℤ σ} {C D : κ → Prop} {direct : Prop} {cap : ℕ} (uidMax : ℤ)
    {R : ℕ → σ → List (Event ι η κ) → Prop} (hQ : Refines Q (Event.Ok C direct) cap R) (h0 : C 0)
    (hC : ∀ c d, C c → D d → C (c + d)) (ops : List (Op ι η κ)) (hops : ∀ op ∈ ops, op.Ok C D direct)
    (hn : insertions ops ≤ cap) :
    let tr := trace Q uidMax (St.init Q) ops
    (dispatchedOf tr).Pairwise (order · < order ·) ∧ (dispatchedOf tr ++ cancelledOf tr).Nodup ∧
      (∀ e ∈ dispatchedOf tr ++ cancelledOf tr, e ∈ insertedOf tr) ∧
      (∀ e ∈ insertedOf tr, e ∉ dispatchedOf tr → e ∉ cancelledOf tr → ∀ d ∈ dispatchedOf tr, d.time ≤ e.time →
        order d < order e) ∧
      (∀ pre d post, tr = pre ++ .ok (.dispatched d) :: post →
        (∀ e ∈ insertedOf pre, e ∉ dispatchedOf pre → e ∉ cancelledOf pre → e ≠ d → order d < order e) ∧
        ∀ e ∈ insertedOf tr, e ∉ dispatchedOf tr → e ∉ cancelledOf tr → order e < order d → e ∈ insertedOf post) ∧
      .error .notFound ∉ tr := by
  intro tr
  have htr : tr = trace ListScheduler uidMax (St.init ListScheduler) ops := trace_eq hQ h0 hC ops hops hn
  obtain ⟨hist, hfail⟩ := History.run uidMax ops History.init
  rw [← htr] at hist hfail
  simp only [List.nil_append] at hist
  have hnodup : (insertedOf tr).Nodup := hist.numbered.imp fun hlt heq => by rw [heq] at hlt; exact lt_irrefl _ hlt
  have hparts := hist.conserved.nodup_iff.1 hnodup
  refine ⟨hist.sorted, (List.nodup_append.1 hparts).1, fun e he => ?_, fun e he hd hx d hdm hle => ?_,
    fun pre d post hsplit => ?_, hfail⟩
  · exact hist.conserved.mem_iff.2 (List.mem_append_left _ he)
  · exact hist.behind d hdm e (hist.mem_queue he hd hx) hle
  · have hfirst : ∀ e ∈ insertedOf pre, e ∉ dispatchedOf pre → e ∉ cancelledOf pre → e ≠ d → order d < order e := by
      obtain ⟨before, op, s', hpre, hstep⟩ := trace_split pre ops _ (htr.symm.trans hsplit)
      obtain ⟨hbefore, -⟩ := History.run uidMax before History.init
      rw [hpre] at hbefore
      exact fun e he hd hx hne => hbefore.dispatch_first hstep (hbefore.mem_queue he hd hx) hne
    refine ⟨hfirst, fun e he hd hx hlt => ?_⟩
    have hparts : insertedOf tr = insertedOf pre ++ insertedOf post ∧
        dispatchedOf tr = dispatchedOf pre ++ d :: dispatchedOf post ∧
        cancelledOf tr = cancelledOf pre ++ cancelledOf post := by
      rw [hsplit]
      simp [insertedOf, dispatchedOf, cancelledOf, outs, List.filterMap_cons, Out.inserted?, Out.dispatched?,
        Out.cancelled?]
    rw [hparts.2.1, List.mem_append, not_or] at hd
    rw [hparts.2.2, List.mem_append, not_or] at hx
    rw [hparts.1, List.mem_append] at he
    refine he.resolve_left fun hpre => ?_
    have hne : e ≠ d := fun heq => hd.2 (heq ▸ List.mem_cons_self)
    exact lt_asymm hlt (hfirst e hpre hd.1 hx.1 hne)

/-- Three events, one of them new and one cancelled: the other two come out in order. A fourth is inserted
into the past. -/
theorem dispatched_in_order_three :
    let tr := trace (ListScheduler : Impl (Event ℕ ℕ ℤ) ℤ _) 9 (St.init ListScheduler)
      [.schedule (some 0) 1 5, .schedule (some 0) 2 3, .insert 0 3, .cancel 2, .dispatch, .dispatch, .insert 0 1]
    (dispatchedOf tr).Pairwise (order · < order ·) ∧ (dispatchedOf tr ++ cancelledOf tr).Nodup ∧ .error .notFound ∉ tr :=
  have hQ : Refines (ListScheduler : Impl (Event ℕ ℕ ℤ) ℤ _) (Event.Ok (fun _ => True) True) 4 fun _ s l => s = l :=
    (ListScheduler.refines 4).restrict fun _ _ => trivial
  have h := dispatched_in_order (D := fun _ => True) 9 hQ trivial (fun _ _ _ _ => trivial)
    [.schedule (some 0) 1 5, .schedule (some 0) 2 3, .insert 0 3, .cancel 2, .dispatch, .dispatch, .insert 0 1]
    (by simp [Op.Ok]) (by decide)
  ⟨h.1, h.2.1, h.2.2.2.2.2⟩

end

end Ns2.Sched
