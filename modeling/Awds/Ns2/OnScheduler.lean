import Awds.Ns2.Heap
import Awds.Ns2.Calendar
import Awds.Ns2.Node

/-!
# The ns-2 backend on its scheduler

`Ns2.St` keeps its part of the queue as a list and leaves open which event is next. Here it runs on the
scheduler of ns-2: `calls` are the calls of `Scheduler::schedule`, `insert` and `cancel` it makes in one step, in
their order. The rest of the simulation has events of its own in the same queue. `AbsTime::now()` cuts the
scheduler's time to a tick, so an event between two ticks would leave a deadline that is `now()` in the past: the
delays of the rest are whole ticks here (`InTime`).

| here | there |
| --- | --- |
| `resched`, `cancel`  | `TimerHandler::_sched`, `_cancel` (`common/timer-handler.h`) |
| `calls`              | `waitFor` (`ShadowEventHandler.cc:55`), `doPendingEvents`, `process_data` (`ShadowUdpHandle.cc:184`) |
| `System.step`        | `Scheduler::run`, `GeaNsEvent` and `TimerHandler` as the handlers |
-/

namespace Ns2.OnScheduler

open Gea StableQueue Sched

variable {ω σ κ : Type*}

/-- The `event_` of a handle's timer, or an event of the rest. -/
abbrev Obj (ω : Type*) := Handle ⊕ ω

/-- What is called for an event; the registration is a part of the `GeaNsEvent`. -/
abbrev Handler (ω : Type*) := Ev ⊕ ω

abbrev NsEvent (ω κ : Type*) := Sched.Event (Obj ω) (Handler ω) κ

abbrev Call (ω κ : Type*) := Sched.Op (Obj ω) (Handler ω) κ

abbrev SchedSt (ω κ σ : Type*) := Sched.St (Obj ω) (Handler ω) κ σ

/-- How the scheduler keeps the time, in which `AbsTime` counts ticks. -/
structure Clock (κ : Type*) [AddCommGroup κ] [LinearOrder κ] where
  secs : AbsTime →+ κ
  mono : StrictMono secs
  ticks : κ → AbsTime
  ticks_secs : ∀ t, ticks (secs t) = t

/-- In seconds: `getSecondsD`, and `Ns2ApiIface::getCurrentTime` with the conversion to `StoreType`. -/
def Clock.seconds : Clock ℚ where
  secs :=
    { toFun t := (t : ℚ) / 2 ^ 28
      map_zero' := by simp
      map_add' a b := by push_cast; ring }
  mono a b hab := div_lt_div_of_pos_right (Int.cast_lt.2 hab) (by norm_num)
  ticks x := if 0 ≤ x then ⌊x * 2 ^ 28⌋ else ⌈x * 2 ^ 28⌉
  ticks_secs t := by
    have hback : (t : ℚ) / 2 ^ 28 * 2 ^ 28 = t := div_mul_cancel₀ _ (by norm_num)
    change (if 0 ≤ (t : ℚ) / 2 ^ 28 then ⌊(t : ℚ) / 2 ^ 28 * 2 ^ 28⌋ else ⌈(t : ℚ) / 2 ^ 28 * 2 ^ 28⌉) = t
    rw [hback, Int.floor_intCast, Int.ceil_intCast, ite_self]

section
variable [AddCommGroup κ] [LinearOrder κ] (clk : Clock κ)

/-! ## The calls -/

def cancel (h : Handle) : Call ω κ := .cancel (.inl h)

def resched (s : Ns2.St) (h : Handle) (t : AbsTime) : List (Call ω κ) :=
  (if s.timer h = .pending then [cancel h] else []) ++
    [.schedule (some (.inl (.timer h))) (.inl h) (clk.secs (t - s.clock))]

/-- `runPending` cancels the timer of the entry. -/
def pendingCalls (s : Ns2.St) (p : EventDescr) : List (Call ω κ) :=
  if s.timer p.reg.h = .pending then [cancel p.reg.h] else []

/-- The calls of `Ns2.resume`. -/
def resumeCalls : List Frame → Ns2.St → List (Call ω κ)
  | [], _ | .main :: _, _ | .cb _ :: _, _ => []
  | .pend _ (p :: _) :: _, s => pendingCalls s p
  | .pend _ [] :: fs, s | .drain :: fs, s => match s.pendingList with
    | [] => resumeCalls fs s
    | p :: _ => pendingCalls s p
  | .timer h :: fs, s => resumeCalls fs (s.settle h)
  | .write _ :: fs, s | .recv _ :: fs, s => resumeCalls fs s

/-- The calls of `Ns2.step`, apart from `dispatch`. -/
def calls (cfg : Cfg) (s : Ns2.St) : Input → List (Call ω κ)
  | .waitFor h t e d => match cfg.kind h with
    | .blocker => [.insert (.inl (.gea ⟨s.regs.length, h, t, e, d⟩)) (clk.secs t)]
    | .depend => if s.timer h = .pending then [] else resched clk s h t
    | .udpRead => resched clk s h t
    | .udpWrite => []
  | .arrive h => if s.status h = .blocked ∧ s.timer h = .pending then [cancel h] else []
  | .ret => match s.stack with
    | .main :: fs | .cb _ :: fs => resumeCalls fs s
    | _ => []
  | .start _ | .advance _ | .complied _ | .dispatch _ => []

end

/-! ## The system -/

structure System (ω κ σ : Type*) where
  gea : Ns2.St
  sched : SchedSt ω κ σ
  /-- The scheduler has called `abort`. -/
  aborted : Option Sched.Failure

/-- What the environment decides. The scheduler takes its events by itself. -/
inductive SysInput (ω κ : Type*) where
  | gea (i : Input)
  | schedule (w : ω) (delay : κ)
  | cancel (w : ω)
  /-- one turn of `Scheduler::run` -/
  | run

section
variable [DecidableEq ω] [AddCommGroup κ] [LinearOrder κ] (clk : Clock κ) (cfg : Cfg) (Q : Impl (NsEvent ω κ) ℤ σ)
  (uidMax : ℤ)

def perform : SchedSt ω κ σ → List (Call ω κ) → Except Sched.Failure (SchedSt ω κ σ)
  | q, [] => .ok q
  | q, c :: cs => match Sched.step Q uidMax q c with
    | .error f => .error f
    | .ok (_, q) => perform q cs

/-- The backend comes to `g`, unless one of the calls does not return. -/
def System.after (s : System ω κ σ) (g : Ns2.St) (cs : List (Call ω κ)) : System ω κ σ :=
  match perform Q uidMax s.sched cs with
  | .error f => { s with aborted := some f }
  | .ok q => { s with gea := g, sched := q }

/-- The handler of an event that was taken from the queue. -/
def handled (g : Ns2.St) (e : NsEvent ω κ) : Ns2.St :=
  match e.handler with
  | some (.inl ev) => dispatch cfg g ⟨clk.ticks e.time, ev⟩
  | _ => { g with clock := clk.ticks e.time }

def System.step (s : System ω κ σ) (i : SysInput ω κ) : Option (System ω κ σ) :=
  if s.aborted.isSome ∨ s.gea.failed.isSome then none
  else match i with
    | .gea (.dispatch _) | .gea (.advance _) => none
    | .gea i => (Ns2.step cfg s.gea i).map fun g => s.after Q uidMax g (calls clk cfg s.gea i)
    | .schedule w delay =>
      if 0 < (s.sched.mem (.inr w)).uid then none
      else some (s.after Q uidMax s.gea [.schedule (some (.inr w)) (.inr w) delay])
    | .cancel w => some (s.after Q uidMax s.gea [.cancel (.inr w)])
    | .run =>
      if s.gea.stack = [] then
        match s.sched.dispatch Q with
        | .error f => some { s with aborted := some f }
        | .ok (.dispatched e, q) => some { s with gea := handled clk cfg s.gea e, sched := q }
        | .ok (_, q) => some { s with sched := q }
      else none

def System.init (status : Handle → Status) : System ω κ σ := ⟨Ns2.St.init status, Sched.St.init Q, none⟩

end

/-! ## What the queue holds -/

section
variable [AddCommGroup κ] [LinearOrder κ] (clk : Clock κ)

/-- What the backend sees of an event. -/
def scheduled? (e : NsEvent ω κ) : Option Scheduled :=
  match e.handler with
  | some (.inl ev) => some ⟨clk.ticks e.time, ev⟩
  | _ => none

/-- Whose event it is. -/
def Owned : Addr (Obj ω) → Option (Handler ω) → Prop
  | .own (.inl h), hd => hd = some (.inl (.timer h))
  | .own (.inr w), hd => hd = some (.inr w)
  | .new _, hd => ∃ r, hd = some (.inl (.gea r))

/-- The list of the backend is its part of the queue. -/
structure Coupled (g : Ns2.St) (q : SchedSt ω κ (List (NsEvent ω κ))) : Prop where
  queue : g.queue = q.queue.filterMap (scheduled? clk)
  clock : q.clock = clk.secs g.clock
  whole : ∀ e ∈ q.queue, e.time = clk.secs (clk.ticks e.time)
  inv : Sched.Inv q.mem q.uid q.inserts q.queue
  owned : ∀ e ∈ q.queue, Owned e.obj e.handler

end

section
variable [AddCommGroup κ] [LinearOrder κ] {clk : Clock κ} {g u : Ns2.St}
  {q : SchedSt ω κ (List (NsEvent ω κ))} {e : NsEvent ω κ} {h : Handle} {t : AbsTime}

theorem ticks_of_scheduled {x : Scheduled} (hx : scheduled? clk e = some x) : x.time = clk.ticks e.time := by
  unfold scheduled? at hx
  split at hx
  · cases hx; rfl
  · cases hx

theorem Owned.timer (ho : Owned e.obj e.handler) (hx : scheduled? clk e = some ⟨t, .timer h⟩) : e.obj = .own (.inl h) := by
  unfold scheduled? at hx
  split at hx
  · rename_i ev hev
    cases hx
    rw [hev] at ho
    cases hobj : e.obj with
    | own o =>
      rw [hobj] at ho
      rcases o with k | w
      · cases ho; rfl
      · cases ho
    | new i =>
      rw [hobj] at ho
      obtain ⟨r, hr⟩ := ho
      cases hr
  · cases hx

theorem Coupled.congr (hc : Coupled clk g q) (hq : u.queue = g.queue) (hclock : u.clock = g.clock) : Coupled clk u q :=
  ⟨hq.trans hc.queue, hclock ▸ hc.clock, hc.whole, hc.inv, hc.owned⟩

/-- An event of the backend goes into both queues. -/
theorem Coupled.enqueue (hc : Coupled clk g q) {x : Scheduled} (hx : scheduled? clk e = some x)
    (htime : e.time = clk.secs x.time) :
    Multimap.insert Scheduled.time x g.queue = (Multimap.insert Event.time e q.queue).filterMap (scheduled? clk) := by
  have hkeys : ∀ y ∈ q.queue, ∀ c, scheduled? clk y = some c → clk.secs c.time = y.time := fun y hy c hyc => by
    rw [ticks_of_scheduled hyc, ← hc.whole y hy]
  rw [hc.queue, Multimap.filterMap_insert hx htime.symm hc.inv.stable.multimap hkeys]
  exact (Multimap.insert_strictMono clk.mono x _).symm

/-- The event of a pending timer is in the queue, and positive. -/
theorem Coupled.pending_iff (hc : Coupled clk g q) (ht : Timers g.queue g.timer) :
    g.timer h = .pending ↔ 0 < (q.mem (.inl h)).uid := by
  constructor
  · intro hp
    have hpos : 0 < timerEvents g.queue h := by rw [ht h, if_pos hp]; exact Nat.one_pos
    obtain ⟨x, hx, hev⟩ := List.countP_pos_iff.1 hpos
    rw [hc.queue] at hx
    obtain ⟨e, he, hxe⟩ := List.mem_filterMap.1 hx
    have hev : x.ev = .timer h := by simpa using hev
    obtain ⟨hmem, huid, -⟩ := hc.inv.stored e he _ ((hc.owned e he).timer (t := x.time) (by rw [hxe, ← hev]))
    rwa [hmem]
  · intro huid
    have hin := hc.inv.queued _ huid
    have hown := hc.owned _ hin
    rw [hc.inv.obj] at hown
    have hmem : (⟨clk.ticks (q.mem (.inl h)).time, .timer h⟩ : Scheduled) ∈ g.queue := by
      rw [hc.queue]
      exact List.mem_filterMap.2 ⟨_, hin, by rw [scheduled?, hown]⟩
    exact ht.pending hmem rfl

end

variable [DecidableEq ω] [AddCommGroup κ] [LinearOrder κ] {clk : Clock κ} {cfg : Cfg} (uidMax : ℤ) {g u : Ns2.St}
  {q : SchedSt ω κ (List (NsEvent ω κ))} {h : Handle} {t : AbsTime}

/-- The calls return, or there are no more uids. -/
def Served (clk : Clock κ) (u : Ns2.St) (r : Except Sched.Failure (SchedSt ω κ (List (NsEvent ω κ)))) : Prop :=
  r = .error .uidExhausted ∨ ∃ q', r = .ok q' ∧ Coupled clk u q'

/-- An event leaves both queues, or was not the backend's. -/
theorem Coupled.erase {e : NsEvent ω κ} (hc : Coupled clk g q) (hin : e ∈ q.queue)
    (hq : u.queue = (q.queue.erase e).filterMap (scheduled? clk)) {c : κ} (hclock : c = clk.secs u.clock) :
    Coupled clk u { q with queue := q.queue.erase e, clock := c, mem := store q.mem { e with uid := -e.uid } } :=
  ⟨hq, hclock, fun x hx => hc.whole x (List.mem_of_mem_erase hx), hc.inv.erase hin,
    fun x hx => hc.owned x (List.mem_of_mem_erase hx)⟩

theorem Coupled.cancel (hc : Coupled clk g q) (ht : Timers g.queue g.timer) (hp : g.timer h = .pending)
    (hq : u.queue = g.queue.filter (·.ev ≠ .timer h)) (hclock : u.clock = g.clock) :
    ∃ q', Sched.step ListScheduler uidMax q (cancel h) = .ok (.cancelled (q.mem (.inl h)), q') ∧ Coupled clk u q' ∧
      (q'.mem (.inl h)).uid ≤ 0 := by
  have huid := (hc.pending_iff ht).1 hp
  have hin := hc.inv.queued _ huid
  have hobj := hc.inv.obj (.inl h)
  generalize he : q.mem (.inl h) = e at huid hin hobj
  have hstep : Sched.step ListScheduler uidMax q (OnScheduler.cancel h) = .ok (.cancelled e,
      { q with queue := q.queue.erase e, mem := store q.mem { e with uid := -e.uid } }) := by
    simp only [OnScheduler.cancel, Sched.step, Sched.St.cancel, he, if_neg (not_le.2 huid), listScheduler_cancel hin]
  refine ⟨_, hstep, hc.erase hin ?_ (hclock ▸ hc.clock), ?_⟩
  · -- among the events the backend sees, only that of the timer goes
    have hnodup : q.queue.Nodup := hc.inv.stable.nodup
    rw [hq, hc.queue, hnodup.erase_eq_filter, List.filter_filterMap, List.filterMap_filter]
    refine List.filterMap_congr fun x hx => ?_
    by_cases hxe : x = e
    · have hown := hc.owned e hin
      rw [hobj] at hown
      have hsched : scheduled? clk e = some ⟨clk.ticks e.time, .timer h⟩ := by rw [scheduled?, hown]
      simp [hxe, hsched]
    · have hne : (x != e) = true := by simpa using hxe
      rw [if_pos hne]
      cases hsched : scheduled? clk x with
      | none => rfl
      | some y =>
        have hev : y.ev ≠ .timer h := by
          intro hev
          have hxo := (hc.owned x hx).timer (t := y.time) (by rw [hsched, ← hev])
          obtain ⟨hmem, -, -⟩ := hc.inv.stored x hx _ hxo
          exact hxe (hmem.symm.trans he)
        simp [hev]
  · obtain ⟨obj, hd, time, uid, seq⟩ := e
    cases hobj
    simpa using huid.le

/-- `Scheduler::schedule`, of a timer or for the rest of the simulation. -/
theorem Coupled.schedule (hc : Coupled clk g q) {o : Obj ω} {hd : Handler ω} (hown : Owned (.own o) (some hd))
    (hfree : (q.mem o).uid ≤ 0) (d : AbsTime)
    (hq : ∀ e : NsEvent ω κ, e.handler = some hd → e.time = clk.secs (g.clock + d) →
      u.queue = (Multimap.insert Event.time e q.queue).filterMap (scheduled? clk)) (hclock : u.clock = g.clock) :
    Served clk u (perform ListScheduler uidMax q [.schedule (some hd) o (clk.secs d)]) := by
  have htime : q.clock + clk.secs d = clk.secs (g.clock + d) := by rw [hc.clock, ← map_add]
  simp only [perform, Sched.step, Sched.St.schedule, Option.isNone_some, Bool.false_eq_true, if_false,
    if_neg (not_lt.2 hfree), htime]
  split_ifs with hmax
  · exact .inl rfl
  · refine .inr ⟨_, rfl, ?_, hclock ▸ hc.clock, fun x hx => ?_, ?_, fun x hx => ?_⟩
    · simp only [Sched.St.enqueue, listScheduler_insert]
      exact hq _ rfl rfl
    · simp only [Sched.St.enqueue, listScheduler_insert, Multimap.mem_insert] at hx
      rcases hx with rfl | hx
      · exact congrArg clk.secs (clk.ticks_secs _).symm
      · exact hc.whole x hx
    · simp only [Sched.St.enqueue, listScheduler_insert, store_own]
      exact hc.inv.schedule _ _ _ hfree
    · simp only [Sched.St.enqueue, listScheduler_insert, Multimap.mem_insert] at hx
      rcases hx with rfl | hx
      · exact hown
      · exact hc.owned x hx

theorem Coupled.insert (hc : Coupled clk g q) (r : Reg)
    (hq : u.queue = Multimap.insert Scheduled.time ⟨t, .gea r⟩ g.queue) (hclock : u.clock = g.clock) :
    Served clk u (perform ListScheduler uidMax q [.insert (.inl (.gea r)) (clk.secs t)]) := by
  have hx : scheduled? clk (⟨.new q.inserts, some (.inl (.gea r)), clk.secs t, 0, q.inserts⟩ : NsEvent ω κ) =
      some ⟨t, .gea r⟩ := by rw [scheduled?, clk.ticks_secs]
  simp only [perform, Sched.step, Sched.St.insert]
  refine .inr ⟨_, rfl, ?_, hclock ▸ hc.clock, fun x hx => ?_, ?_, fun x hx => ?_⟩
  · simp only [Sched.St.enqueue, listScheduler_insert]
    rw [hq, hc.enqueue hx rfl]
  · simp only [Sched.St.enqueue, listScheduler_insert, Multimap.mem_insert] at hx
    rcases hx with rfl | hx
    · exact congrArg clk.secs (clk.ticks_secs t).symm
    · exact hc.whole x hx
  · simp only [Sched.St.enqueue, listScheduler_insert, store_new]
    exact hc.inv.insert _ _ _
  · simp only [Sched.St.enqueue, listScheduler_insert, Multimap.mem_insert] at hx
    rcases hx with rfl | hx
    · exact ⟨r, rfl⟩
    · exact hc.owned x hx

theorem Coupled.resched (hc : Coupled clk g q) (ht : Timers g.queue g.timer) (hq : u.queue = (g.resched h t).queue)
    (hclock : u.clock = g.clock) : Served clk u (perform ListScheduler uidMax q (resched clk g h t)) := by
  have hx : ∀ e : NsEvent ω κ, e.handler = some (.inl (.timer h)) → e.time = clk.secs (g.clock + (t - g.clock)) →
      scheduled? clk e = some ⟨t, .timer h⟩ ∧ e.time = clk.secs t := by
    intro e hhd htime
    rw [add_sub_cancel] at htime
    rw [scheduled?, hhd, htime, clk.ticks_secs]
    exact ⟨rfl, rfl⟩
  have hown : Owned (.own (.inl h : Obj ω)) (some (.inl (.timer h))) := rfl
  by_cases hp : g.timer h = .pending
  · obtain ⟨q', hstep, hc', hfree⟩ := hc.cancel uidMax (u := g.remove h) ht hp rfl rfl
    have hserved := hc'.schedule uidMax (u := u) hown hfree (t - g.clock)
      (fun e hhd htime => by
        rw [← hc'.enqueue (hx e hhd htime).1 (hx e hhd htime).2, hq, St.resched]
        simp only [if_pos hp]) hclock
    simp only [OnScheduler.resched, if_pos hp, List.singleton_append, perform, hstep]
    exact hserved
  · have hfree : (q.mem (.inl h)).uid ≤ 0 := not_lt.1 fun hpos => hp ((hc.pending_iff ht).2 hpos)
    simp only [OnScheduler.resched, if_neg hp, List.nil_append]
    refine hc.schedule uidMax hown hfree (t - g.clock) (fun e hhd htime => ?_) hclock
    rw [← hc.enqueue (hx e hhd htime).1 (hx e hhd htime).2, hq, St.resched]
    simp only [if_neg hp]

/-! ## The rest of the simulation -/

theorem Coupled.scheduleOther (hc : Coupled clk g q) {w : ω} (hfree : (q.mem (.inr w)).uid ≤ 0) (d : AbsTime) :
    Served clk g (perform ListScheduler uidMax q [.schedule (some (.inr w)) (.inr w) (clk.secs d)]) := by
  have hown : Owned (.own (.inr w : Obj ω)) (some (.inr w)) := rfl
  refine hc.schedule uidMax hown hfree d (fun e hhd _ => ?_) rfl
  have hnone : scheduled? clk e = none := by rw [scheduled?, hhd]
  rw [Multimap.filterMap_insert_of_none hnone, hc.queue]

theorem Coupled.cancelOther (hc : Coupled clk g q) (w : ω) :
    Served clk g (perform ListScheduler uidMax q [.cancel (.inr w)]) := by
  by_cases huid : (q.mem (.inr w)).uid ≤ 0
  · refine .inr ⟨q, ?_, hc⟩
    simp only [perform, Sched.step, Sched.St.cancel, if_pos huid]
  · have hin := hc.inv.queued _ (not_le.1 huid)
    have hown := hc.owned _ hin
    rw [hc.inv.obj] at hown
    have hnone : scheduled? clk (q.mem (.inr w)) = none := by rw [scheduled?, hown]
    refine .inr ⟨_, ?_, hc.erase (u := g) (c := q.clock) hin ?_ hc.clock⟩
    · simp only [perform, Sched.step, Sched.St.cancel, if_neg huid, listScheduler_cancel hin]
    · rw [hc.queue, hc.inv.stable.nodup.erase_eq_filter, List.filterMap_filter]
      refine List.filterMap_congr fun x _ => ?_
      by_cases hx : x = q.mem (.inr w)
      · simp [hx, hnone]
      · simp [hx]

/-! ## Each step of the backend is served -/

/-- A step that makes no call, or cancels one timer that is pending. -/
structure Cancels (s u : Ns2.St) (cs : List (Call ω κ)) : Prop where
  clock : u.clock = s.clock
  calls : cs = [] ∧ u.queue = s.queue ∨
    ∃ h, s.timer h = .pending ∧ cs = [cancel h] ∧ u.queue = s.queue.filter (·.ev ≠ .timer h)

omit [DecidableEq ω] [AddCommGroup κ] [LinearOrder κ] in
theorem Cancels.none {s : Ns2.St} (hq : u.queue = s.queue) (hclock : u.clock = s.clock) :
    Cancels s u ([] : List (Call ω κ)) :=
  ⟨hclock, .inl ⟨rfl, hq⟩⟩

omit [DecidableEq ω] [AddCommGroup κ] [LinearOrder κ] in
/-- The status of a timer that is being handled does not matter. -/
theorem Cancels.settle {s : Ns2.St} {cs : List (Call ω κ)} (hs : Cancels (s.settle h) u cs) : Cancels s u cs := by
  have hqueue : (s.settle h).queue = s.queue := by unfold St.settle; split <;> rfl
  have hclock : (s.settle h).clock = s.clock := by unfold St.settle; split <;> rfl
  have htimer : ∀ k, (s.settle h).timer k = .pending → s.timer k = .pending := by
    intro k hk
    unfold St.settle at hk
    split at hk
    · by_cases hkh : k = h
      · subst hkh
        simp at hk
      · simpa [Function.update_of_ne hkh] using hk
    · exact hk
  refine ⟨hs.clock.trans hclock, ?_⟩
  rw [← hqueue]
  exact hs.calls.imp_right fun ⟨k, hk, hcs⟩ => ⟨k, htimer k hk, hcs⟩

omit [DecidableEq ω] [AddCommGroup κ] [LinearOrder κ] in
theorem runPending_cancels (s : Ns2.St) (t : AbsTime) (p : EventDescr) (stack : List Frame) :
    Cancels s (runPending s t p stack) (pendingCalls s p : List (Call ω κ)) := by
  unfold runPending pendingCalls
  by_cases hp : s.timer p.reg.h = .pending
  · rw [if_pos hp, if_pos hp, St.cancel, if_pos hp]
    exact ⟨rfl, .inr ⟨_, hp, rfl, rfl⟩⟩
  · rw [if_neg hp, if_neg hp]
    exact .none rfl rfl

omit [DecidableEq ω] [AddCommGroup κ] [LinearOrder κ] in
theorem resume_cancels : ∀ (fs : List Frame) (s : Ns2.St), Cancels s (resume fs s) (resumeCalls fs s : List (Call ω κ))
  | [], s | .main :: _, s | .cb _ :: _, s => .none rfl rfl
  | .pend t (p :: todo) :: fs, s => runPending_cancels s t p (.pend t todo :: fs)
  | .pend t [] :: fs, s => by
    cases hl : s.pendingList with
    | nil =>
      simp only [resume, resumeCalls, doPendingEvents, hl]
      exact resume_cancels fs s
    | cons p todo =>
      simp only [resume, resumeCalls, doPendingEvents, hl]
      have hrun := runPending_cancels (ω := ω) (κ := κ) { s with pendingList := [] } t p (.pend t todo :: fs)
      exact ⟨hrun.clock, hrun.calls⟩
  | .drain :: fs, s => by
    cases hl : s.pendingList with
    | nil =>
      simp only [resume, resumeCalls, doPendingEvents, hl]
      exact resume_cancels fs s
    | cons p todo =>
      simp only [resume, resumeCalls, doPendingEvents, hl]
      have hrun := runPending_cancels (ω := ω) (κ := κ) { s with pendingList := [] } s.lastEventTime p
        (.pend s.lastEventTime todo :: fs)
      exact ⟨hrun.clock, hrun.calls⟩
  | .timer h :: fs, s => (resume_cancels fs (s.settle h)).settle
  | .write _ :: fs, s | .recv _ :: fs, s => resume_cancels fs s

omit [DecidableEq ω] in
theorem processData_cancels (s : Ns2.St) (h : Handle) :
    Cancels s (processData cfg s h) (calls clk cfg s (.arrive h) : List (Call ω κ)) := by
  cases hst : s.status h with
  | blocked =>
    simp only [processData, calls, hst, true_and]
    by_cases hp : s.timer h = .pending
    · simp only [if_pos hp, St.cancel]
      refine ⟨?_, .inr ⟨h, hp, rfl, ?_⟩⟩
      · cases hsl : s.slot h <;> rfl
      · cases hsl : s.slot h <;> rfl
    · simp only [if_neg hp, St.cancel]
      exact .none rfl rfl
  | error | timeout | ready | undefined =>
    simp only [processData, calls, hst, reduceCtorEq, false_and, if_false]
    exact .none rfl rfl

theorem Cancels.served {s : Ns2.St} {cs : List (Call ω κ)} (hs : Cancels s u cs) (hc : Coupled clk s q)
    (ht : Timers s.queue s.timer) : Served clk u (perform ListScheduler uidMax q cs) := by
  rcases hs.calls with ⟨rfl, hq⟩ | ⟨h, hp, rfl, hq⟩
  · exact .inr ⟨q, rfl, hc.congr hq hs.clock⟩
  · obtain ⟨q', hstep, hc', -⟩ := hc.cancel uidMax ht hp hq hs.clock
    refine .inr ⟨q', ?_, hc'⟩
    simp only [perform, hstep]

theorem Coupled.waitFor (hc : Coupled clk g q) (ht : Timers g.queue g.timer) (h : Handle) (t : AbsTime) (e : Gea.Event)
    (d : Data) :
    Served clk (g.waitFor cfg h t e d) (perform ListScheduler uidMax q (calls clk cfg g (.waitFor h t e d))) := by
  cases hk : cfg.kind h with
  | blocker =>
    simp only [calls, St.waitFor, hk]
    exact hc.insert uidMax _ rfl rfl
  | depend =>
    simp only [calls, St.waitFor, hk, St.activate]
    by_cases hp : g.timer h = .pending
    · rw [if_pos hp, if_pos hp]
      exact .inr ⟨q, rfl, hc.congr rfl rfl⟩
    · rw [if_neg hp, if_neg hp]
      exact hc.resched uidMax ht rfl rfl
  | udpRead =>
    simp only [calls, St.waitFor, hk, St.setupEvent]
    exact hc.resched uidMax ht rfl rfl
  | udpWrite =>
    simp only [calls, St.waitFor, hk]
    exact .inr ⟨q, rfl, hc.congr rfl rfl⟩

/-- The step lemma: what the backend does to its list, its calls do to the queue. -/
theorem Coupled.step {i : Input} (hc : Coupled clk g q) (ht : Timers g.queue g.timer) (hs : Ns2.step cfg g i = some u)
    (hrun : ∀ x, i ≠ .dispatch x) (hadv : ∀ t, i ≠ .advance t) :
    Served clk u (perform ListScheduler uidMax q (calls clk cfg g i)) := by
  unfold Ns2.step at hs
  split at hs
  · cases hs
  cases i with
  | start n =>
    obtain ⟨-, hu⟩ := Option.ite_none_right_eq_some.1 hs
    cases hu
    exact .inr ⟨q, rfl, hc.congr rfl rfl⟩
  | advance t => exact absurd rfl (hadv t)
  | dispatch x => exact absurd rfl (hrun x)
  | arrive h =>
    obtain ⟨-, hu⟩ := Option.ite_none_right_eq_some.1 hs
    cases hu
    exact (processData_cancels g h).served uidMax hc ht
  | waitFor h t e d =>
    obtain ⟨-, hu⟩ := Option.ite_none_right_eq_some.1 hs
    cases hu
    exact hc.waitFor uidMax ht h t e d
  | complied d =>
    obtain ⟨-, hu⟩ := Option.ite_none_right_eq_some.1 hs
    cases hu
    refine .inr ⟨q, rfl, hc.congr ?_ ?_⟩
    · unfold St.complied
      split
      · rfl
      · split <;> rfl
    · unfold St.complied
      split
      · rfl
      · split <;> rfl
  | ret =>
    simp only at hs
    split at hs
    · rename_i fs hst
      cases hs
      simp only [calls, hst]
      exact (resume_cancels fs g).served uidMax hc ht
    · rename_i r fs hst
      cases hs
      simp only [calls, hst]
      exact (resume_cancels fs g).served uidMax hc ht
    · cases hs

/-! ## The scheduler dispatches -/

theorem dispatch_frame {x : Scheduled} (hle : g.clock ≤ x.time) :
    (dispatch cfg g x).queue = g.queue.erase x ∧ (dispatch cfg g x).clock = x.time := by
  rw [dispatch, if_neg (not_lt.2 hle)]
  cases hev : x.ev with
  | gea r => exact ⟨rfl, rfl⟩
  | timer k =>
    simp only [timerHandle]
    split
    · split
      · unfold expire
        split <;> exact ⟨rfl, rfl⟩
      · unfold doTimeout
        split <;> exact ⟨rfl, rfl⟩
    · exact ⟨rfl, rfl⟩

omit [DecidableEq ω] in
theorem handled_none {e : NsEvent ω κ} (hx : scheduled? clk e = none) :
    handled clk cfg g e = { g with clock := clk.ticks e.time } := by
  unfold handled
  split
  · rename_i ev hev
    rw [scheduled?, hev] at hx
    cases hx
  · rfl

omit [DecidableEq ω] in
theorem handled_some {e : NsEvent ω κ} {x : Scheduled} (hx : scheduled? clk e = some x) :
    handled clk cfg g e = dispatch cfg g x := by
  unfold scheduled? at hx
  split at hx
  · rename_i ev hev
    cases hx
    rw [handled, hev]
  · cases hx

/-- The event of the backend that is next is dispatched, and time does not go past it. -/
def InOrder (s : Ns2.St) : Input → Prop
  | .dispatch x => s.queue.head? = some x
  | .advance t => ∀ x ∈ s.queue, t ≤ x.time
  | .waitFor _ t _ _ => s.clock ≤ t
  | _ => True

/-- What is dispatched is the event at the front; for the backend it is one of its own, or time goes by. -/
theorem Coupled.handled {e : NsEvent ω κ} {l : List (NsEvent ω κ)} (hc : Coupled clk g q) (hl : q.queue = e :: l)
    (hle : q.clock ≤ e.time) (hstack : g.stack = []) (hfail : g.failed = none) :
    Coupled clk (handled clk cfg g e)
        { q with queue := l, clock := e.time, mem := store q.mem { e with uid := -e.uid } } ∧
      ∃ i, InOrder g i ∧ Ns2.step cfg g i = some (handled clk cfg g e) := by
  have hin : e ∈ q.queue := hl ▸ List.mem_cons_self
  have herase : q.queue.erase e = l := by rw [hl, List.erase_cons_head]
  have hwhole := hc.whole e hin
  have hclock : g.clock ≤ clk.ticks e.time := by
    rw [hc.clock, hwhole] at hle
    exact clk.mono.le_iff_le.1 hle
  have hcoupled : ∀ {u : Ns2.St}, u.queue = l.filterMap (scheduled? clk) → u.clock = clk.ticks e.time →
      Coupled clk u { q with queue := l, clock := e.time, mem := store q.mem { e with uid := -e.uid } } := by
    intro u hq hu
    have herased := hc.erase (u := u) (c := e.time) hin (by rw [herase]; exact hq) (by rw [hu, ← hwhole])
    rwa [herase] at herased
  have hqueue : g.queue = (e :: l).filterMap (scheduled? clk) := by rw [hc.queue, hl]
  cases hx : scheduled? clk e with
  | none =>
    rw [List.filterMap_cons_none hx] at hqueue
    rw [handled_none hx]
    refine ⟨hcoupled hqueue rfl, .advance (clk.ticks e.time), fun y hy => ?_, ?_⟩
    · rw [hqueue] at hy
      obtain ⟨e', he', hy⟩ := List.mem_filterMap.1 hy
      have hsorted := hc.inv.stable.multimap
      rw [hl] at hsorted
      have hlater : e.time ≤ e'.time := (List.pairwise_cons.1 hsorted).1 e' he'
      rw [hwhole, hc.whole e' (hl ▸ List.mem_cons_of_mem e he'), clk.mono.le_iff_le] at hlater
      rwa [ticks_of_scheduled hy]
    simp only [Ns2.step, hfail, Option.isSome_none, Bool.false_eq_true, if_false]
    exact if_pos ⟨hstack, hclock⟩
  | some x =>
    rw [List.filterMap_cons_some hx] at hqueue
    rw [handled_some hx]
    have htime := ticks_of_scheduled hx
    obtain ⟨hq, hnow⟩ := @dispatch_frame cfg g x (htime ▸ hclock)
    rw [hqueue, List.erase_cons_head] at hq
    refine ⟨hcoupled hq (hnow.trans htime), .dispatch x, by rw [InOrder, hqueue, List.head?_cons], ?_⟩
    simp only [Ns2.step, hfail, Option.isSome_none, Bool.false_eq_true, if_false]
    exact if_pos ⟨hstack, hqueue ▸ List.mem_cons_self⟩

/-! ## Nothing is scheduled for a time that is over -/

/-- At the time `now` the call is for no earlier time. -/
def OnTime (now : κ) : Call ω κ → Prop
  | .schedule _ _ delay => 0 ≤ delay
  | .insert _ time => now ≤ time
  | .cancel _ => True
  | _ => False

omit [DecidableEq ω] in
theorem Clock.secs_nonneg (clk : Clock κ) {d : AbsTime} (hd : 0 ≤ d) : 0 ≤ clk.secs d := by
  have hle := clk.mono.monotone hd
  rwa [map_zero] at hle

omit [DecidableEq ω] in
theorem Cancels.onTime {s : Ns2.St} {cs : List (Call ω κ)} (hs : Cancels s u cs) (now : κ) :
    ∀ c ∈ cs, OnTime now c := by
  rcases hs.calls with ⟨rfl, -⟩ | ⟨h, -, rfl, -⟩
  · exact fun c hc => by cases hc
  · intro c hc
    rw [List.mem_singleton.1 hc]
    exact trivial

omit [DecidableEq ω] in
theorem resched_onTime {s : Ns2.St} (ht : s.clock ≤ t) (now : κ) :
    ∀ c ∈ (resched clk s h t : List (Call ω κ)), OnTime now c := by
  intro c hc
  rcases List.mem_append.1 hc with hc | hc
  · split at hc
    · rw [List.mem_singleton.1 hc]
      exact trivial
    · cases hc
  · rw [List.mem_singleton.1 hc]
    exact clk.secs_nonneg (sub_nonneg.2 ht)

omit [DecidableEq ω] in
theorem calls_onTime {i : Input} (hi : InOrder g i) :
    ∀ c ∈ (calls clk cfg g i : List (Call ω κ)), OnTime (clk.secs g.clock) c := by
  cases i with
  | waitFor h t e d =>
    have ht : g.clock ≤ t := hi
    cases hk : cfg.kind h with
    | blocker =>
      simp only [calls, hk]
      intro c hc
      rw [List.mem_singleton.1 hc]
      exact clk.mono.monotone ht
    | depend =>
      simp only [calls, hk]
      split
      · exact fun c hc => by cases hc
      · exact resched_onTime ht _
    | udpRead =>
      simp only [calls, hk]
      exact resched_onTime ht _
    | udpWrite =>
      simp only [calls, hk]
      exact fun c hc => by cases hc
  | arrive h => exact Cancels.onTime (u := processData cfg g h) (processData_cancels g h) _
  | ret =>
    simp only [calls]
    split
    · exact (resume_cancels _ g).onTime _
    · exact (resume_cancels _ g).onTime _
    · exact fun c hc => by cases hc
  | start _ | advance _ | complied _ | dispatch _ => exact fun c hc => by cases hc

omit [DecidableEq ω] [AddCommGroup κ] [LinearOrder κ] in
theorem Cancels.insertions {s : Ns2.St} {cs : List (Call ω κ)} (hs : Cancels s u cs) : insertions cs = 0 := by
  rcases hs.calls with ⟨rfl, -⟩ | ⟨h, -, rfl, -⟩
  · rfl
  · rfl

omit [DecidableEq ω] in
theorem insertions_resched (s : Ns2.St) (h : Handle) (t : AbsTime) :
    insertions (resched clk s h t : List (Call ω κ)) = 1 := by
  unfold resched
  split <;> rfl

omit [DecidableEq ω] in
theorem insertions_calls (i : Input) : insertions (calls clk cfg g i : List (Call ω κ)) ≤ 1 := by
  cases i with
  | waitFor h t e d =>
    cases hk : cfg.kind h with
    | blocker =>
      simp only [calls, hk]
      exact le_rfl
    | depend =>
      simp only [calls, hk]
      split
      · exact Nat.zero_le 1
      · exact (insertions_resched g h t).le
    | udpRead =>
      simp only [calls, hk]
      exact (insertions_resched g h t).le
    | udpWrite =>
      simp only [calls, hk]
      exact Nat.zero_le 1
  | arrive h => exact (Cancels.insertions (u := processData cfg g h) (processData_cancels g h)).le.trans (Nat.zero_le 1)
  | ret =>
    simp only [calls]
    split
    · exact (resume_cancels _ g).insertions.le.trans (Nat.zero_le 1)
    · exact (resume_cancels _ g).insertions.le.trans (Nat.zero_le 1)
    · exact Nat.zero_le 1
  | start _ | advance _ | complied _ | dispatch _ => exact Nat.zero_le 1

/-- No event in the queue is late. -/
def Due (q : SchedSt ω κ (List (NsEvent ω κ))) : Prop := ∀ e ∈ q.queue, q.clock ≤ e.time

omit [DecidableEq ω] [AddCommGroup κ] in
theorem Due.enqueue [DecidableEq ω] {e : NsEvent ω κ} (hd : Due q) (he : q.clock ≤ e.time) :
    Due (q.enqueue ListScheduler e) := by
  intro x hx
  simp only [Sched.St.enqueue, listScheduler_insert] at hx
  rcases Multimap.mem_insert.1 hx with rfl | hx
  · exact he
  · exact hd x hx

variable [IsOrderedAddMonoid κ]

theorem Due.step {q' : SchedSt ω κ (List (NsEvent ω κ))} {c : Call ω κ} {a} (hd : Due q)
    (hc : OnTime q.clock c) (hs : Sched.step ListScheduler uidMax q c = .ok (a, q')) :
    Due q' ∧ q'.clock = q.clock := by
  cases c with
  | schedule hd' o delay =>
    simp only [Sched.step, Sched.St.schedule] at hs
    split_ifs at hs
    cases hs
    exact ⟨hd.enqueue (le_add_of_nonneg_right hc), rfl⟩
  | insert hd' time =>
    cases hs
    exact ⟨hd.enqueue hc, rfl⟩
  | cancel o =>
    simp only [Sched.step, Sched.St.cancel] at hs
    split_ifs at hs with huid
    · cases hs
      exact ⟨hd, rfl⟩
    · split at hs
      · cases hs
      · rename_i l hl
        cases hs
        have hl : ListScheduler.cancel (q.mem o) q.queue = some l := hl
        rw [ListScheduler.cancel_eq, Option.ite_none_right_eq_some] at hl
        obtain ⟨-, hl⟩ := hl
        cases hl
        exact ⟨fun x hx => hd x (List.mem_of_mem_erase hx), rfl⟩
  | cancelUid _ | dispatch | halt | resume | head | lookup _ => cases hc

theorem Due.perform : ∀ {cs : List (Call ω κ)} {q q' : SchedSt ω κ (List (NsEvent ω κ))}, Due q →
    (∀ c ∈ cs, OnTime q.clock c) → perform ListScheduler uidMax q cs = .ok q' → Due q'
  | [], q, q', hd, _, hs => by
    cases hs
    exact hd
  | c :: cs, q, q', hd, hcs, hs => by
    simp only [OnScheduler.perform] at hs
    split at hs
    · cases hs
    · rename_i a q₁ hstep
      obtain ⟨hd₁, hclock⟩ := hd.step uidMax (hcs c List.mem_cons_self) hstep
      exact Due.perform hd₁ (fun x hx => hclock ▸ hcs x (List.mem_cons_of_mem c hx)) hs

/-! ## Runs on `ListScheduler` -/

/-- User code waits for no time that is over, the rest of the simulation neither, and for whole ticks. -/
def InTime (clk : Clock κ) (s : Ns2.St) : SysInput ω κ → Prop
  | .gea (.waitFor _ t _ _) => s.clock ≤ t
  | .schedule _ delay => 0 ≤ delay ∧ delay = clk.secs (clk.ticks delay)
  | _ => True

instance (s : Ns2.St) : (i : SysInput ω κ) → Decidable (InTime clk s i)
  | .gea (.waitFor _ t _ _) => inferInstanceAs (Decidable (s.clock ≤ t))
  | .schedule _ delay => inferInstanceAs (Decidable (0 ≤ delay ∧ delay = clk.secs (clk.ticks delay)))
  | .gea (.start _) | .gea (.advance _) | .gea (.dispatch _) | .gea (.arrive _) | .gea (.complied _) | .gea .ret
  | .cancel _ | .run => isTrue trivial

structure Sound (clk : Clock κ) (cfg : Cfg) (t : System ω κ (List (NsEvent ω κ))) : Prop where
  reaches : Reaches cfg InOrder t.gea
  coupled : Coupled clk t.gea t.sched
  due : Due t.sched
  aborted : t.aborted = none ∨ t.aborted = some .uidExhausted

variable {s s' : System ω κ σ} {t t' : System ω κ (List (NsEvent ω κ))} {i : SysInput ω κ}

theorem Sound.after {cs : List (Call ω κ)} (ht : Sound clk cfg t) (hu : Reaches cfg InOrder u)
    (hserved : Served clk u (perform ListScheduler uidMax t.sched cs)) (hcs : ∀ c ∈ cs, OnTime t.sched.clock c) :
    Sound clk cfg (t.after ListScheduler uidMax u cs) := by
  rcases hserved with hmax | ⟨q', hq', hcoupled⟩
  · simp only [System.after, hmax]
    exact ⟨ht.reaches, ht.coupled, ht.due, .inr rfl⟩
  · simp only [System.after, hq']
    exact ⟨hu, hcoupled, ht.due.perform uidMax hcs hq', ht.aborted⟩

omit [IsOrderedAddMonoid κ] in
/-- The event at the front is not late: the scheduler never runs backwards. -/
theorem Sound.run (ht : Sound clk cfg t) (hstack : t.gea.stack = []) (hfail : t.gea.failed = none) :
    t.sched.dispatch ListScheduler = .ok (.done, t.sched) ∨
      ∃ e q, t.sched.dispatch ListScheduler = .ok (.dispatched e, q) ∧
        Sound clk cfg { t with gea := handled clk cfg t.gea e, sched := q } := by
  by_cases hhalt : t.sched.halted
  · exact .inl (by rw [Sched.St.dispatch, if_pos hhalt])
  · rw [Sched.St.dispatch, if_neg hhalt]
    cases hl : t.sched.queue with
    | nil => exact .inl rfl
    | cons e l =>
      have hle : t.sched.clock ≤ e.time := ht.due e (hl ▸ List.mem_cons_self)
      obtain ⟨hcoupled, i, hi, hstep⟩ : _ ∧ ∃ i, InOrder t.gea i ∧ Ns2.step cfg t.gea i = some (handled clk cfg t.gea e) :=
        ht.coupled.handled hl hle hstack hfail
      simp only [listScheduler_deque, if_neg (not_lt.2 hle)]
      refine .inr ⟨e, _, rfl, ht.reaches.tail hi hstep, hcoupled, ?_, ht.aborted⟩
      have hsorted := ht.coupled.inv.stable.multimap
      rw [hl] at hsorted
      exact (List.pairwise_cons.1 hsorted).1

/-- The step lemma. -/
theorem Sound.step (ht : Sound clk cfg t) (hi : InTime clk t.gea i)
    (hs : System.step clk cfg ListScheduler uidMax t i = some t') : Sound clk cfg t' := by
  have htimers : Timers t.gea.queue t.gea.timer := (wf_reaches ht.reaches).timers
  have hclock := ht.coupled.clock
  unfold System.step at hs
  split at hs
  · cases hs
  rename_i hrun
  obtain ⟨-, hfail⟩ := not_or.1 hrun
  cases i with
  | gea i =>
    have hgea : ∀ {u}, Ns2.step cfg t.gea i = some u → (∀ x, i ≠ .dispatch x) → (∀ c, i ≠ .advance c) →
        Sound clk cfg (t.after ListScheduler uidMax u (calls clk cfg t.gea i)) := fun hu hd ha =>
      have ho : InOrder t.gea i := by
        cases i with
        | dispatch x => exact absurd rfl (hd x)
        | advance c => exact absurd rfl (ha c)
        | start _ | arrive _ | waitFor _ _ _ _ | complied _ | ret => exact hi
      ht.after uidMax (ht.reaches.tail ho hu) (ht.coupled.step uidMax htimers hu hd ha) (hclock ▸ calls_onTime ho)
    cases i with
    | dispatch _ | advance _ => cases hs
    | start _ | arrive _ | waitFor _ _ _ _ | complied _ | ret =>
      obtain ⟨u, hu, rfl⟩ := Option.map_eq_some_iff.1 hs
      exact hgea hu (fun _ h => by cases h) fun _ h => by cases h
  | schedule w delay =>
    simp only at hs
    split at hs
    · cases hs
    · rename_i hfree
      cases hs
      have hserved := ht.coupled.scheduleOther uidMax (not_lt.1 hfree) (clk.ticks delay)
      rw [← hi.2] at hserved
      refine ht.after uidMax ht.reaches hserved fun c hc => ?_
      rw [List.mem_singleton.1 hc]
      exact hi.1
  | cancel w =>
    cases hs
    refine ht.after uidMax ht.reaches (ht.coupled.cancelOther uidMax w) fun c hc => ?_
    rw [List.mem_singleton.1 hc]
    exact trivial
  | run =>
    obtain ⟨hstack, hs⟩ := Option.ite_none_right_eq_some.1 hs
    rcases ht.run hstack (by simpa using hfail) with hdone | ⟨e, q, hdisp, hsound⟩
    · rw [hdone] at hs
      cases hs
      exact ht
    · rw [hdisp] at hs
      cases hs
      exact hsound

/-! ## Runs on any queue -/

variable {Q : Impl (NsEvent ω κ) ℤ σ} {cap : ℕ} {R : ℕ → σ → List (NsEvent ω κ) → Prop}

/-- `t` is the same system on the list that the queue of `s` holds. -/
structure Twin (R : ℕ → σ → List (NsEvent ω κ) → Prop) (s : System ω κ σ) (t : System ω κ (List (NsEvent ω κ))) :
    Prop where
  gea : s.gea = t.gea
  sched : Sim (0 ≤ ·) True R s.sched t.sched
  aborted : s.aborted = t.aborted

omit [DecidableEq ω] [IsOrderedAddMonoid κ] in
theorem OnTime.ok {now : κ} (hnow : 0 ≤ now) {c : Call ω κ} (hc : OnTime now c) : c.Ok (0 ≤ ·) (0 ≤ ·) True := by
  cases c with
  | schedule _ _ delay => exact hc
  | insert _ time => exact ⟨trivial, hnow.trans hc⟩
  | cancel _ => exact trivial
  | cancelUid _ | dispatch | halt | resume | head | lookup _ => cases hc

theorem perform_sim (hQ : Refines Q (Event.Ok (0 ≤ ·) True) cap R) : ∀ {cs : List (Call ω κ)}
    {p : SchedSt ω κ σ} {q : SchedSt ω κ (List (NsEvent ω κ))},
    Sim (0 ≤ ·) True R p q → (∀ c ∈ cs, c.Ok (0 ≤ ·) (0 ≤ ·) True) → q.inserts + insertions cs ≤ cap →
      (∃ p' q', perform Q uidMax p cs = .ok p' ∧ perform ListScheduler uidMax q cs = .ok q' ∧ Sim (0 ≤ ·) True R p' q') ∨
        ∃ f, perform Q uidMax p cs = .error f ∧ perform ListScheduler uidMax q cs = .error f
  | [], p, q, hsim, _, _ => .inl ⟨p, q, rfl, rfl, hsim⟩
  | c :: cs, p, q, hsim, hcs, hn => by
    have hsum : insertions (c :: cs) = c.inserts + insertions cs := rfl
    have hstep : Agree (After (0 ≤ ·) True R q c.inserts) (Sched.step Q uidMax p c) (Sched.step ListScheduler uidMax q c) :=
      hsim.step hQ (fun _ _ => add_nonneg) (hcs c List.mem_cons_self) (by omega)
    simp only [perform]
    rcases hstep.cases with ⟨a, p', q', hp, hq, hsim', hins⟩ | ⟨f, hp, hq⟩
    · rw [hp, hq]
      exact perform_sim hQ hsim' (fun x hx => hcs x (List.mem_cons_of_mem c hx)) (by omega)
    · rw [hp, hq]
      exact .inr ⟨f, rfl, rfl⟩

theorem Twin.after (hQ : Refines Q (Event.Ok (0 ≤ ·) True) cap R) (h : Twin R s t) {cs : List (Call ω κ)}
    (hcs : ∀ c ∈ cs, OnTime t.sched.clock c) (hone : insertions cs ≤ 1) (hn : s.sched.inserts < cap) :
    Twin R (s.after Q uidMax u cs) (t.after ListScheduler uidMax u cs) := by
  rw [h.sched.inserts] at hn
  rcases perform_sim uidMax hQ h.sched (fun c hc => (hcs c hc).ok h.sched.now) (by omega) with
    ⟨p, q, hp, hq, hsim⟩ | ⟨f, hp, hq⟩
  · simp only [System.after, hp, hq]
    exact ⟨rfl, hsim, h.aborted⟩
  · simp only [System.after, hp, hq]
    exact ⟨h.gea, h.sched, rfl⟩

/-- The step lemma: the system on the list can follow. -/
theorem Twin.step (hQ : Refines Q (Event.Ok (0 ≤ ·) True) cap R) (h : Twin R s t)
    (hclock : t.sched.clock = clk.secs t.gea.clock) (hi : InTime clk s.gea i) (hn : s.sched.inserts < cap)
    (hs : System.step clk cfg Q uidMax s i = some s') :
    ∃ t', System.step clk cfg ListScheduler uidMax t i = some t' ∧ Twin R s' t' := by
  have hafter : ∀ {u : Ns2.St} {cs : List (Call ω κ)}, (∀ c ∈ cs, OnTime (clk.secs t.gea.clock) c) → insertions cs ≤ 1 →
      Twin R (s.after Q uidMax u cs) (t.after ListScheduler uidMax u cs) := fun hcs hone =>
    h.after uidMax hQ (hclock ▸ hcs) hone hn
  unfold System.step at hs ⊢
  rw [h.gea, h.aborted] at hs
  rw [h.gea] at hi
  split at hs
  · cases hs
  rename_i hrun
  rw [if_neg hrun]
  cases i with
  | gea i =>
    cases i with
    | dispatch _ | advance _ => cases hs
    | start _ | arrive _ | waitFor _ _ _ _ | complied _ | ret =>
      obtain ⟨u, hu, rfl⟩ := Option.map_eq_some_iff.1 hs
      exact ⟨_, Option.map_eq_some_iff.2 ⟨u, hu, rfl⟩, hafter (calls_onTime hi) (insertions_calls _)⟩
  | schedule w delay =>
    simp only [h.sched.mem] at hs ⊢
    split at hs
    · cases hs
    · rename_i hfree
      cases hs
      refine ⟨_, if_neg hfree, hafter (fun c hc => ?_) le_rfl⟩
      rw [List.mem_singleton.1 hc]
      exact hi.1
  | cancel w =>
    cases hs
    refine ⟨_, rfl, hafter (fun c hc => ?_) (Nat.zero_le 1)⟩
    rw [List.mem_singleton.1 hc]
    exact trivial
  | run =>
    obtain ⟨hstack, hs⟩ := Option.ite_none_right_eq_some.1 hs
    simp only [if_pos hstack]
    rcases (h.sched.dispatch hQ).cases with ⟨a, p, q, hp, hq, hsim, -⟩ | ⟨f, hp, hq⟩
    · rw [hp] at hs
      rw [hq]
      cases a with
      | dispatched e =>
        cases hs
        exact ⟨_, rfl, rfl, hsim, rfl⟩
      | inserted _ | cancelled _ | found _ | done =>
        cases hs
        exact ⟨_, rfl, rfl, hsim, rfl⟩
    · rw [hp] at hs
      rw [hq]
      cases hs
      exact ⟨_, rfl, rfl, h.sched, rfl⟩

omit [IsOrderedAddMonoid κ] in
theorem sound_init (status : Handle → Status) :
    Sound clk cfg (System.init (ListScheduler : Impl (NsEvent ω κ) ℤ _) status) where
  reaches := ⟨status, .refl⟩
  coupled := ⟨rfl, (map_zero clk.secs).symm, by simp [System.init, Sched.St.init, ListScheduler], inv_init,
    by simp [System.init, Sched.St.init, ListScheduler]⟩
  due := by simp [Due, System.init, Sched.St.init, ListScheduler]
  aborted := .inl rfl

/-- The run lemma. -/
theorem exists_twin {status : Handle → Status} (hQ : Refines Q (Event.Ok (0 ≤ ·) True) cap R)
    (hs : Lts.Reach (System.step clk cfg Q uidMax) (fun s i => InTime clk s.gea i ∧ s.sched.inserts < cap)
      (System.init Q status) s) :
    ∃ t, Twin R s t ∧ Sound clk cfg t := by
  induction hs with
  | refl => exact ⟨System.init ListScheduler status, ⟨rfl, .init hQ le_rfl, rfl⟩, sound_init status⟩
  | tail _ hok hstep ih =>
    obtain ⟨t, htwin, hsound⟩ := ih
    obtain ⟨t', ht', htwin'⟩ := htwin.step uidMax hQ hsound.coupled.clock hok.1 hok.2 hstep
    exact ⟨t', htwin', hsound.step uidMax (htwin.gea ▸ hok.1) ht'⟩

/-- On any queue that does what the list does, whatever else is scheduled in it, the backend is in a state that it
reaches by itself with the next event first. The events it sees are its part of the queue, none of them is late, and
the scheduler aborts for want of uids only: each cancel finds its event, none is scheduled twice. -/
theorem gea_on_scheduler {status : Handle → Status} (hQ : Refines Q (Event.Ok (0 ≤ ·) True) cap R)
    (hs : Lts.Reach (System.step clk cfg Q uidMax) (fun s i => InTime clk s.gea i ∧ s.sched.inserts < cap)
      (System.init Q status) s) :
    Reaches cfg InOrder s.gea ∧ (s.aborted = none ∨ s.aborted = some .uidExhausted) ∧
      s.sched.clock = clk.secs s.gea.clock ∧
      ∃ l, R s.sched.inserts s.sched.queue l ∧ s.gea.queue = l.filterMap (scheduled? clk) ∧
        ∀ e ∈ l, s.sched.clock ≤ e.time := by
  obtain ⟨t, htwin, hsound⟩ := exists_twin uidMax hQ hs
  rw [htwin.gea, htwin.aborted, htwin.sched.clock, htwin.sched.inserts]
  exact ⟨hsound.reaches, hsound.aborted, hsound.coupled.clock, t.sched.queue, htwin.sched.queue, hsound.coupled.queue,
    hsound.due⟩

/-- A `Blocker` for 1 s and a `DependHandle` for 2 s, and an event of the rest before them; two are dispatched. -/
def mixedRun : List (SysInput Unit ℚ) :=
  [.gea (.start 1), .gea (.waitFor 0 (2 ^ 28) 0 0), .gea (.waitFor 1 (2 ^ 29) 0 0), .gea .ret,
    .schedule () (3 / 2 ^ 28), .run, .run]

/-- `CalendarScheduler` is what ns-2 takes when nobody asks for another one. -/
theorem gea_on_scheduler_calendar :
    ∃ s, Lts.execOk (System.step Clock.seconds sampleCfg (CalendarScheduler : Impl (NsEvent Unit ℚ) ℤ _) 9)
        (fun s i => InTime Clock.seconds s.gea i ∧ s.sched.inserts < 4)
        (System.init CalendarScheduler fun _ => .undefined) mixedRun = some s ∧
      s.gea.log.length = 1 ∧ Reaches sampleCfg InOrder s.gea ∧ (s.aborted = none ∨ s.aborted = some .uidExhausted) ∧
      s.sched.clock = Clock.seconds.secs s.gea.clock := by
  have hrun : (Lts.execOk (System.step Clock.seconds sampleCfg (CalendarScheduler : Impl (NsEvent Unit ℚ) ℤ _) 9)
      (fun s i => InTime Clock.seconds s.gea i ∧ s.sched.inserts < 4)
      (System.init CalendarScheduler fun _ => .undefined) mixedRun).map (·.gea.log.length) = some 1 := by
    decide +kernel
  obtain ⟨s, hs, hlog⟩ := Option.map_eq_some_iff.1 hrun
  obtain ⟨hreaches, haborted, hclock, -⟩ :=
    gea_on_scheduler 9 ((Cal.refines 4).restrict fun _ he => he.1) (Lts.execOk_reach mixedRun hs)
  exact ⟨s, hs, hlog, hreaches, haborted, hclock⟩

end Ns2.OnScheduler
