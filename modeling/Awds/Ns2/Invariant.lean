import Awds.Ns2.Step

/-!
# What holds in every state of the ns-2 backend

A timer is `TIMER_PENDING` exactly when its event is in the scheduler's queue, and then it is there
once (`Timers`). A waiting registration waits with its own handle, only `DependHandle`s get into
`pendingList`, and what waits or was called was registered (`Wf`). No condition on the user code is
needed.
-/

namespace Ns2

open Gea

def Frame.todo : Frame → List EventDescr
  | .pend _ todo => todo
  | _ => []

def todos (stack : List Frame) : List EventDescr := stack.flatMap Frame.todo

/-- The entries of `pendingList`, and those taken out of it and not called yet. -/
def St.entries (s : St) : List EventDescr := todos s.stack ++ s.pendingList

/-- The registrations called, in order. -/
def St.called (s : St) : List Reg := s.log.map Invocation.reg

@[simp] theorem called_call (s : St) (r : Reg) (t : AbsTime) (path : Path) (stack : List Frame) :
    (s.call r t path stack).called = s.called ++ [r] := by
  simp [St.called, St.call]

@[simp] theorem entries_call (s : St) (r : Reg) (t : AbsTime) (path : Path) (stack : List Frame) :
    (s.call r t path stack).entries = todos stack ++ s.pendingList := rfl

@[simp] theorem todos_nil : todos [] = [] := rfl
@[simp] theorem todos_cons (f : Frame) (fs : List Frame) : todos (f :: fs) = f.todo ++ todos fs := List.flatMap_cons

/-! ## Timers -/

/-- The events of a handle's timer in the queue. -/
def timerEvents (queue : List Scheduled) (h : Handle) : Nat := queue.countP (·.ev = .timer h)

def Timers (queue : List Scheduled) (timer : Handle → TimerStatus) : Prop :=
  ∀ h, timerEvents queue h = if timer h = .pending then 1 else 0

section
variable {queue : List Scheduled} {timer : Handle → TimerStatus}

theorem timerEvents_insert (x : Scheduled) (h : Handle) :
    timerEvents (Multimap.insert Scheduled.time x queue) h = timerEvents queue h + if x.ev = .timer h then 1 else 0 := by
  simp [timerEvents, (Multimap.insert_perm Scheduled.time x queue).countP_eq, List.countP_cons]

theorem timerEvents_remove (h k : Handle) :
    timerEvents (queue.filter (·.ev ≠ .timer h)) k = if k = h then 0 else timerEvents queue k := by
  simp only [timerEvents, List.countP_filter]
  split
  · rename_i hk; subst hk
    rw [List.countP_eq_zero]
    intro x _; simp
  · rename_i hk
    refine List.countP_congr fun x _ => ?_
    have : x.ev = .timer k → x.ev ≠ .timer h := fun he hh => hk (by rw [he] at hh; cases hh; rfl)
    simpa using this

theorem timerEvents_erase {x : Scheduled} (hx : x ∈ queue) (h : Handle) :
    timerEvents queue h = timerEvents (queue.erase x) h + if x.ev = .timer h then 1 else 0 := by
  simp [timerEvents, (List.perm_cons_erase hx).countP_eq, List.countP_cons]

theorem Timers.insert_gea (ht : Timers queue timer) (t : AbsTime) (r : Reg) :
    Timers (Multimap.insert Scheduled.time ⟨t, .gea r⟩ queue) timer := by
  intro h
  rw [timerEvents_insert, if_neg (by simp), ht h, Nat.add_zero]

/-- A timer is cancelled: it may have been pending or not. -/
theorem Timers.remove (ht : Timers queue timer) (h : Handle) :
    Timers (queue.filter (·.ev ≠ .timer h)) (Function.update timer h .idle) := by
  intro k
  rw [timerEvents_remove]
  by_cases hk : k = h
  · subst hk; simp
  · rw [if_neg hk, ht k, Function.update_of_ne hk]

/-- A timer whose event is not in the queue is scheduled. -/
theorem Timers.schedule {h : Handle} (ht : Timers queue (Function.update timer h .idle)) (t : AbsTime) :
    Timers (Multimap.insert Scheduled.time ⟨t, .timer h⟩ queue) (Function.update timer h .pending) := by
  intro k
  have hk := ht k
  rw [timerEvents_insert, hk]
  by_cases he : k = h
  · subst he; simp
  · rw [if_neg (show ¬(Ev.timer h = Ev.timer k) by simpa using Ne.symm he), Function.update_of_ne he,
      Function.update_of_ne he]
    simp

/-- The status of a timer that is not pending does not matter. -/
theorem Timers.update {h : Handle} (ht : Timers queue timer) (hn : timer h ≠ .pending) {st : TimerStatus}
    (hst : st ≠ .pending) : Timers queue (Function.update timer h st) := by
  intro k
  rw [ht k]
  by_cases he : k = h
  · subst he; simp [hn, hst]
  · rw [Function.update_of_ne he]

/-- The scheduler dispatches the event of a timer. -/
theorem Timers.fire {x : Scheduled} {h : Handle} (ht : Timers queue timer) (hx : x ∈ queue) (he : x.ev = .timer h)
    (hp : timer h = .pending) : Timers (queue.erase x) (Function.update timer h .handling) := by
  intro k
  have hk := ht k
  rw [timerEvents_erase hx] at hk
  by_cases hkh : k = h
  · subst hkh
    rw [if_pos he, if_pos hp] at hk
    simp only [Function.update_self, reduceCtorEq, if_false]; omega
  · rw [if_neg (show ¬x.ev = .timer k by rw [he]; simpa using Ne.symm hkh)] at hk
    rw [Function.update_of_ne hkh]; exact hk

theorem Timers.erase_gea {x : Scheduled} {r : Reg} (ht : Timers queue timer) (hx : x ∈ queue) (he : x.ev = .gea r) :
    Timers (queue.erase x) timer := by
  intro k
  have hk := ht k
  rw [timerEvents_erase hx, if_neg (by rw [he]; simp)] at hk
  exact hk

/-- The event in the queue says that the timer is pending. -/
theorem Timers.pending {x : Scheduled} {h : Handle} (ht : Timers queue timer) (hx : x ∈ queue) (he : x.ev = .timer h) :
    timer h = .pending := by
  have hpos : 0 < timerEvents queue h := List.countP_pos_iff.2 ⟨x, hx, by simpa using he⟩
  rw [ht h] at hpos
  by_contra hn
  rw [if_neg hn] at hpos; omega

end

/-! ## Well-formed states -/

structure Wf (cfg : Cfg) (s : St) : Prop where
  timers : Timers s.queue s.timer
  gea : ∀ x ∈ s.queue, ∀ r, x.ev = .gea r → cfg.kind r.h = .blocker ∧ r ∈ s.regs
  slot : ∀ h r, s.slot h = some r → r.h = h ∧ r ∈ s.regs
  entries : ∀ p ∈ s.entries, cfg.kind p.reg.h = .depend ∧ p.reg ∈ s.regs
  called : ∀ r ∈ s.called, r ∈ s.regs
  ids : s.regs.map Reg.id = List.range s.regs.length

variable {cfg : Cfg} {s s' : St}

theorem Wf.slot_h (h : Wf cfg s) {k : Handle} {r : Reg} (hs : s.slot k = some r) : r.h = k := (h.slot k r hs).1

theorem Wf.regs_nodup (h : Wf cfg s) : s.regs.Nodup :=
  List.Nodup.of_map Reg.id (h.ids ▸ List.nodup_range)

theorem Wf.fresh (h : Wf cfg s) {r : Reg} (hr : r.id = s.regs.length) : r ∉ s.regs := by
  intro hm
  have : r.id ∈ List.range s.regs.length := h.ids ▸ List.mem_map_of_mem hm
  rw [List.mem_range] at this; omega

/-- Queue, timers and slots stay, the registrations and callbacks too, and no entry is added. -/
theorem Wf.congr (h : Wf cfg s) (hq : s'.queue = s.queue) (ht : s'.timer = s.timer) (hs : s'.slot = s.slot)
    (hr : s'.regs = s.regs) (hl : s'.log = s.log) (he : ∀ p ∈ s'.entries, p ∈ s.entries) : Wf cfg s' := by
  refine ⟨hq ▸ ht ▸ h.timers, ?_, ?_, ?_, ?_, hr ▸ h.ids⟩
  · rw [hq, hr]; exact h.gea
  · rw [hs, hr]; exact h.slot
  · rw [hr]; exact fun p hp => h.entries p (he p hp)
  · rw [St.called, hl, hr]; exact h.called

/-- The same, and the callback of a registration is called. -/
theorem Wf.calls {inv : Invocation} (h : Wf cfg s) (hi : inv.reg ∈ s.regs) (hl : s'.log = s.log ++ [inv])
    (hq : s'.queue = s.queue) (ht : s'.timer = s.timer) (hs : s'.slot = s.slot) (hr : s'.regs = s.regs)
    (he : ∀ p ∈ s'.entries, p ∈ s.entries) : Wf cfg s' := by
  have hw : Wf cfg { s' with log := s.log } := h.congr hq ht hs hr rfl he
  refine ⟨hw.timers, hw.gea, hw.slot, hw.entries, fun x hx => ?_, hw.ids⟩
  rw [St.called, hl, List.map_append, List.map_singleton, List.mem_append, List.mem_singleton] at hx
  rw [hr]
  rcases hx with hx | rfl
  · exact h.called x hx
  · exact hi

theorem Wf.remove (h : Wf cfg s) (k : Handle) :
    Wf cfg { s.remove k with timer := Function.update s.timer k .idle } :=
  ⟨h.timers.remove k, fun x hx => h.gea x (List.mem_filter.1 hx).1, h.slot, h.entries, h.called, h.ids⟩

theorem Wf.cancel (h : Wf cfg s) (k : Handle) : Wf cfg (s.cancel k) := by
  unfold St.cancel
  split
  · exact h.remove k
  · exact h.congr rfl rfl rfl rfl rfl fun _ hp => hp

/-- The scheduler takes a timer's event, whose callback will run. -/
theorem Wf.fire {x : Scheduled} {k : Handle} (h : Wf cfg s) (hx : x ∈ s.queue) (he : x.ev = .timer k)
    (hp : s.timer k = .pending) : Wf cfg { s.take x with timer := Function.update s.timer k .handling } :=
  ⟨h.timers.fire hx he hp, fun _ hy => h.gea _ (List.mem_of_mem_erase hy), h.slot, h.entries, h.called, h.ids⟩

theorem Wf.slotNone (h : Wf cfg s) (k : Handle) : Wf cfg { s with slot := Function.update s.slot k none } := by
  refine ⟨h.timers, h.gea, fun k' r hk => ?_, h.entries, h.called, h.ids⟩
  by_cases he : k' = k
  · subst he; simp at hk
  · exact h.slot k' r (by simpa [Function.update_of_ne he] using hk)

theorem Wf.slotSome (h : Wf cfg s) {r : Reg} (hr : r ∈ s.regs) :
    Wf cfg { s with slot := Function.update s.slot r.h (some r) } := by
  refine ⟨h.timers, h.gea, fun k r' hk => ?_, h.entries, h.called, h.ids⟩
  by_cases he : k = r.h
  · subst he
    simp only [Function.update_self, Option.some.injEq] at hk
    subst hk; exact ⟨rfl, hr⟩
  · exact h.slot k r' (by simpa [Function.update_of_ne he] using hk)

theorem Wf.resched (h : Wf cfg s) (k : Handle) (t : AbsTime) : Wf cfg (s.resched k t) := by
  refine ⟨?_, fun x hx r hr => ?_, h.slot, h.entries, h.called, h.ids⟩
  · unfold St.resched St.remove
    dsimp only
    split
    · exact (h.timers.remove k).schedule t
    · rename_i hn; exact (h.timers.update hn (by simp)).schedule t
  · unfold St.resched St.remove at hx
    dsimp only at hx
    rcases Multimap.mem_insert.1 hx with rfl | hx
    · cases hr
    · split at hx
      · exact h.gea x (List.mem_filter.1 hx).1 r hr
      · exact h.gea x hx r hr

theorem Wf.register (h : Wf cfg s) {r : Reg} (hr : r.id = s.regs.length) : Wf cfg (s.register r) := by
  have hmono : ∀ x ∈ s.regs, x ∈ s.regs ++ [r] := fun _ hx => List.mem_append_left _ hx
  refine ⟨h.timers, fun x hx y hy => (h.gea x hx y hy).imp_right (hmono y),
    fun k y hy => (h.slot k y hy).imp_right (hmono y), fun p hp => (h.entries p hp).imp_right (hmono _),
    fun y hy => hmono y (h.called y hy), ?_⟩
  simp [St.register, h.ids, hr, List.range_succ]

theorem mem_register (r : Reg) : r ∈ (s.register r).regs := List.mem_append_right _ (List.mem_singleton_self r)

theorem wf_step {i : Input} (h : Wf cfg s) (hs : Step cfg s i s') : Wf cfg s' := by
  cases hs with
  | start | advance | backwards | insane | cancel | uninitialised => exact h.congr rfl rfl rfl rfl rfl fun _ hp => hp
  | ignored | notBlocked => exact h
  | @handle x r _ hx _ he =>
    have ht : Wf cfg (s.take x) :=
      ⟨h.timers.erase_gea hx he, fun _ hy => h.gea _ (List.mem_of_mem_erase hy), h.slot, h.entries, h.called, h.ids⟩
    exact ht.calls (h.gea x hx r he).2 rfl rfl rfl rfl rfl fun _ hp => hp
  | sanity _ hx he ht => exact absurd (h.timers.pending hx he) ht
  | unset _ hx he ht => exact h.fire hx he ht
  | noEvent _ hx he ht => exact (h.fire hx he ht).congr rfl rfl rfl rfl rfl fun _ hp => hp
  | expire _ hx _ he ht _ hsl =>
    exact (h.fire hx he ht).calls (h.slot _ _ hsl).2 rfl rfl rfl rfl rfl fun _ hp => hp
  | @doTimeout x k r _ hx he ht _ hsl =>
    exact ((h.fire hx he ht).slotNone k).calls (h.slot _ _ hsl).2 rfl rfl rfl rfl rfl fun _ hp => hp
  | noHandler => exact (h.cancel _).congr rfl rfl rfl rfl rfl fun _ hp => hp
  | @receive k r _ _ _ _ hsl =>
    exact ((h.remove k).slotNone k).calls (h.slot _ _ hsl).2 rfl rfl rfl rfl rfl fun _ hp => hp
  | @blocker k t e d _ hk =>
    have hw := h.register (r := ⟨s.regs.length, k, t, e, d⟩) rfl
    refine ⟨hw.timers.insert_gea _ _, fun x hx r hr => ?_, hw.slot, hw.entries, hw.called, hw.ids⟩
    rcases Multimap.mem_insert.1 hx with rfl | hx
    · cases hr; exact ⟨hk, mem_register _⟩
    · exact hw.gea x hx r hr
  | @activate k t e d _ _ =>
    have hw := (h.register (r := ⟨s.regs.length, k, t, e, d⟩) rfl).slotSome (mem_register _)
    unfold St.activate
    dsimp only
    split
    · exact hw.congr rfl rfl rfl rfl rfl fun _ hp => hp
    · exact hw.resched _ _
  | @setupEvent k t e d _ _ =>
    have hw := (h.register (r := ⟨s.regs.length, k, t, e, d⟩) rfl).slotSome (mem_register _)
    refine Wf.resched ?_ _ _
    exact hw.congr rfl rfl rfl rfl rfl fun _ hp => hp
  | @write k t e d _ _ =>
    have hw := h.register (r := ⟨s.regs.length, k, t, e, d⟩) rfl
    exact hw.calls (mem_register _) rfl rfl rfl rfl rfl fun _ hp => hp
  | @complied d r _ hk _ hsl =>
    refine ⟨h.timers, h.gea, h.slot, fun p hp => ?_, h.called, h.ids⟩
    simp only [St.entries, St.trigger, List.mem_append, List.mem_singleton, ← or_assoc] at hp
    rcases hp with hp | rfl
    · exact h.entries p (List.mem_append.2 hp)
    · exact ⟨h.slot_h hsl ▸ hk, (h.slot _ _ hsl).2⟩
  | ret hs _ =>
    refine h.congr rfl rfl rfl rfl rfl fun p hp => ?_
    simp only [St.entries, hs, todos_cons, List.mem_append] at hp ⊢; tauto

theorem drains_todo {f : Frame} {t : AbsTime} (h : f.drains s t) : f.todo = [] := by
  rcases h with ⟨rfl, -⟩ | rfl <;> rfl

theorem entries_cons {f : Frame} {fs : List Frame} (hs : s.stack = f :: fs) :
    s.entries = f.todo ++ (todos fs ++ s.pendingList) := by
  rw [St.entries, hs, todos_cons, List.append_assoc]

theorem wf_unwind (h : Wf cfg s) (hu : Unwind s s') : Wf cfg s' := by
  have hpop : ∀ {f : Frame} {fs : List Frame}, s.stack = f :: fs → Wf cfg { s with stack := fs } := fun hs =>
    h.congr rfl rfl rfl rfl rfl fun p hp => by
      rw [entries_cons hs]; exact List.mem_append_right _ hp
  cases hu with
  | pop hs | done hs => exact hpop hs
  | @timer k fs hs =>
    have hw := hpop hs
    unfold St.settle
    split
    · rename_i hn
      exact ⟨hw.timers.update (by simp [hn]) (by simp), hw.gea, hw.slot, hw.entries, hw.called, hw.ids⟩
    · exact hw
  | take hs hf hp =>
    refine h.congr rfl rfl rfl rfl rfl fun p hp' => ?_
    rw [entries_cons hs, hp]
    simp only [St.entries, todos_cons, Frame.todo, List.append_nil, List.mem_append] at hp' ⊢; tauto
  | @run t p todo fs hs ht =>
    have hw : Wf cfg { s with stack := .pend t todo :: fs } := h.congr rfl rfl rfl rfl rfl fun q hq => by
      rw [entries_cons hs]; exact List.mem_cons_of_mem _ (by simpa [St.entries, Frame.todo] using hq)
    have hreg : p.reg ∈ s.regs := (h.entries p (by rw [entries_cons hs]; exact List.mem_cons_self)).2
    exact (hw.remove p.reg.h).calls hreg rfl rfl rfl rfl rfl fun _ hq => hq
  | stuck hs =>
    refine h.congr rfl rfl rfl rfl rfl fun q hq => ?_
    rw [entries_cons hs]; exact List.mem_cons_of_mem _ (by simpa [St.entries, St.fail, Frame.todo] using hq)

theorem wf_init (status : Handle → Status) : Wf cfg (St.init status) :=
  ⟨fun _ => rfl, by simp [St.init], by simp [St.init], by simp [St.init, St.entries], by simp [St.init, St.called], rfl⟩

theorem wf_reaches {ok : St → Input → Prop} (h : Reaches cfg ok s) : Wf cfg s :=
  h.invariant wf_init (fun _ _ _ hI _ hs => wf_step hI hs) fun _ _ hI hu => wf_unwind hI hu

/-- The invariant rule for what holds of well-formed states. -/
theorem reach_invariant_wf {ok : St → Input → Prop} {I : St → Prop} {status : Handle → Status}
    (h : Lts.Reach (step cfg) ok (St.init status) s) (h0 : I (St.init status))
    (hstep : ∀ t i u, Wf cfg t → I t → ok t i → Step cfg t i u → I u)
    (hun : ∀ t u, Wf cfg t → I t → Unwind t u → I u) : Wf cfg s ∧ I s :=
  reach_invariant (I := fun s => Wf cfg s ∧ I s) h ⟨wf_init status, h0⟩
    (fun t i u hI ho hs => ⟨wf_step hI.1 hs, hstep t i u hI.1 hI.2 ho hs⟩)
    fun t u hI hu => ⟨wf_unwind hI.1 hu, hun t u hI.1 hI.2 hu⟩

theorem Reaches.invariant_wf {ok : St → Input → Prop} {I : St → Prop} (h : Reaches cfg ok s)
    (h0 : ∀ status, I (St.init status)) (hstep : ∀ t i u, Wf cfg t → I t → ok t i → Step cfg t i u → I u)
    (hun : ∀ t u, Wf cfg t → I t → Unwind t u → I u) : Wf cfg s ∧ I s := by
  obtain ⟨status, hr⟩ := h
  exact reach_invariant_wf hr (h0 status) hstep hun

end Ns2
