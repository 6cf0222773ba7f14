import Awds.Ns2.Invariant

/-!
# The event time and the simulator's clock

| path | `t`, `GEA.lastEventTime` |
| --- | --- |
| `handle` (`ShadowEventHandler.cc:92`)          | the deadline of the event, which is due at it (`Due`) |
| `expire` (`ShadowDepend.cc:26`)                | the clock |
| `process_data` (`ShadowUdpHandle.cc:224`)      | the clock |
| `do_timeout` (`:281`)                          | the deadline, at which the timer was set to go off |
| `waitFor`, write mode (`ShadowEventHandler.cc:81`) | the clock, and `lastEventTime` stays |
| `doPendingEvents` (`:115`)                     | its argument |

The argument of `doPendingEvents` is the time of the callback before it, except behind a write-mode
`waitFor`: there it is the deadline (`ShadowEventHandler.cc:82`). What is pending then gets a time
that may be in the future. `event_not_ahead`: in a run where that does not happen, no callback's
time, and no `lastEventTime`, is later than the clock.
-/

namespace Ns2

open Gea

/-- The deadline a write-mode `waitFor` hands to `doPendingEvents` when the running callback returns. -/
def St.writeDeadline (s : St) : Option AbsTime :=
  match s.stack with
  | _ :: .pend t [] :: .write _ :: _ => some t
  | _ => none

/-- When a callback returns to a write-mode `waitFor`, nothing is pending or its deadline is not
ahead of the clock. -/
def NotAhead (s : St) : Input → Prop
  | .ret => s.pendingList ≠ [] → ∀ t ∈ s.writeDeadline, t ≤ s.clock
  | _ => True

instance (s : St) : (i : Input) → Decidable (NotAhead s i)
  | .ret => inferInstanceAs (Decidable (s.pendingList ≠ [] → ∀ t ∈ s.writeDeadline, t ≤ s.clock))
  | .start _ | .advance _ | .dispatch _ | .arrive _ | .waitFor _ _ _ _ | .complied _ => isTrue trivial

variable {cfg : Cfg} {s s' : St}

/-! ## Queued events are due at their deadlines -/

/-- The event of a `Blocker` is queued at its deadline, and so is the timer of a `UdpHandle`. -/
structure Due (cfg : Cfg) (s : St) : Prop where
  gea : ∀ x ∈ s.queue, ∀ r, x.ev = .gea r → x.time = r.timeout
  timer : ∀ x ∈ s.queue, ∀ h, x.ev = .timer h → cfg.kind h ≠ .depend → ∀ r, s.slot h = some r → x.time = r.timeout

/-- Nothing is queued, and no handle but a `DependHandle` starts to wait. -/
theorem Due.mono (hd : Due cfg s) (hq : ∀ x ∈ s'.queue, x ∈ s.queue)
    (hs : ∀ h r, cfg.kind h ≠ .depend → s'.slot h = some r → s.slot h = some r) : Due cfg s' := by
  constructor
  · intro x hx r he
    exact hd.gea x (hq x hx) r he
  · intro x hx h he hk r hr
    exact hd.timer x (hq x hx) h he hk r (hs h r hk hr)

theorem Due.slotNone (hd : Due cfg s) (hq : ∀ x ∈ s'.queue, x ∈ s.queue) (k : Handle)
    (hs : s'.slot = Function.update s.slot k none) : Due cfg s' := by
  refine hd.mono hq fun h r _ hr => ?_
  rw [hs] at hr
  by_cases he : h = k
  · subst he; simp at hr
  · rwa [Function.update_of_ne he] at hr

/-- `waitFor` on a read-mode `UdpHandle` moves the handle's timer to the deadline. -/
theorem Due.setupEvent {r : Reg} (hd : Due cfg s) (hw : Wf cfg s) : Due cfg (s.setupEvent r) := by
  have hold : ∀ x ∈ (if s.timer r.h = .pending then (s.remove r.h).queue else s.queue),
      x ∈ s.queue ∧ x.ev ≠ .timer r.h := by
    intro x hx
    split at hx
    · simpa [St.remove] using hx
    · rename_i hn
      exact ⟨hx, fun he => hn (hw.timers.pending hx he)⟩
  constructor
  · intro x hx y he
    rcases Multimap.mem_insert.1 hx with rfl | hx
    · cases he
    · exact hd.gea x (hold x hx).1 y he
  · intro x hx h he hk y hy
    rcases Multimap.mem_insert.1 hx with rfl | hx
    · cases he
      simp only [St.setupEvent, St.resched, Function.update_self, Option.some.injEq] at hy
      rw [← hy]
    · have hne : h ≠ r.h := fun hh => (hold x hx).2 (hh ▸ he)
      simp only [St.setupEvent, St.resched, Function.update_of_ne hne] at hy
      exact hd.timer x (hold x hx).1 h he hk y hy

theorem Due.activate {r : Reg} (hd : Due cfg s) (hk : cfg.kind r.h = .depend) : Due cfg (s.activate r) := by
  have hslot : ∀ h y, cfg.kind h ≠ .depend → Function.update s.slot r.h (some r) h = some y → s.slot h = some y := by
    intro h y hkh hy
    have hne : h ≠ r.h := fun hh => hkh (hh ▸ hk)
    rwa [Function.update_of_ne hne] at hy
  unfold St.activate
  dsimp only
  split
  · exact hd.mono (fun _ hx => hx) hslot
  · have hq : ∀ x ∈ (if s.timer r.h = .pending then (s.remove r.h).queue else s.queue), x ∈ s.queue := by
      intro x hx
      split at hx
      · exact (List.mem_filter.1 hx).1
      · exact hx
    constructor
    · intro x hx y he
      rcases Multimap.mem_insert.1 hx with rfl | hx
      · cases he
      · exact hd.gea x (hq x hx) y he
    · intro x hx h he hkh y hy
      rcases Multimap.mem_insert.1 hx with rfl | hx
      · cases he; exact absurd hk hkh
      · exact hd.timer x (hq x hx) h he hkh y (hslot h y hkh hy)

theorem due_step {i : Input} (hw : Wf cfg s) (hd : Due cfg s) (hs : Step cfg s i s') : Due cfg s' := by
  have herase : ∀ x, ∀ y ∈ s.queue.erase x, y ∈ s.queue := fun x y hy => List.mem_of_mem_erase hy
  cases hs with
  | start | advance | backwards | insane | cancel | uninitialised | ret | write | complied =>
    exact hd.mono (fun _ hx => hx) fun _ _ _ hr => hr
  | ignored | notBlocked => exact hd
  | handle | sanity | unset | expire | noEvent => exact hd.mono (herase _) fun _ _ _ hr => hr
  | @doTimeout x h r => exact hd.slotNone (herase x) h rfl
  | noHandler _ _ hp =>
    rw [St.cancel, if_pos hp]
    exact hd.mono (fun x hx => (List.mem_filter.1 hx).1) fun _ _ _ hr => hr
  | @receive h r => exact hd.slotNone (fun x hx => (List.mem_filter.1 hx).1) h rfl
  | blocker t e d _ hk =>
    constructor
    · intro x hx y he
      rcases Multimap.mem_insert.1 hx with rfl | hx
      · cases he; rfl
      · exact hd.gea x hx y he
    · intro x hx h he hkh y hy
      rcases Multimap.mem_insert.1 hx with rfl | hx
      · cases he
      · exact hd.timer x hx h he hkh y hy
  | @activate h t e d _ hk =>
    have hreg : Due cfg (s.register ⟨s.regs.length, h, t, e, d⟩) := hd.mono (fun _ hx => hx) fun _ _ _ hr => hr
    exact hreg.activate hk
  | @setupEvent h t e d =>
    have hreg : Due cfg (s.register ⟨s.regs.length, h, t, e, d⟩) := hd.mono (fun _ hx => hx) fun _ _ _ hr => hr
    exact hreg.setupEvent (hw.register rfl)

theorem due_unwind (hd : Due cfg s) (hu : Unwind s s') : Due cfg s' := by
  cases hu with
  | pop | done | take | stuck => exact hd.mono (fun _ hx => hx) fun _ _ _ hr => hr
  | @timer h =>
    unfold St.settle
    split
    · exact hd.mono (fun _ hx => hx) fun _ _ _ hr => hr
    · exact hd.mono (fun _ hx => hx) fun _ _ _ hr => hr
  | run => exact hd.mono (fun x hx => (List.mem_filter.1 hx).1) fun _ _ _ hr => hr

/-! ## The stack -/

def Frame.isPend : Frame → Bool
  | .pend _ _ => true
  | _ => false

/-- `doPendingEvents` runs behind user code only, with a time that is not ahead; or it has nothing to
run yet and returns to a write-mode `waitFor`. -/
def Timed (clock : AbsTime) : List Frame → Prop
  | [] => True
  | f :: fs =>
    (∀ t todo, f = .pend t todo → t ≤ clock ∨ todo = [] ∧ ∃ h fs', fs = .write h :: fs') ∧
      (f.user = false → ∀ g ∈ fs.head?, g.isPend = false) ∧ Timed clock fs

/-- The times used so far are not ahead of the clock, and neither is the time that what is pending
will get. -/
structure Clocked (s : St) : Prop where
  last : s.lastEventTime ≤ s.clock
  log : ∀ inv ∈ s.log, inv.t ≤ s.clock
  stack : Timed s.clock s.stack
  top : ∀ t fs, s.stack = .pend t [] :: fs → s.pendingList ≠ [] → t ≤ s.clock

/-- A callback is called, at a time that is not ahead. -/
theorem Clocked.call {r : Reg} {t : AbsTime} {path : Path} {stack : List Frame} (hl : s.lastEventTime ≤ s.clock)
    (hlog : ∀ inv ∈ s.log, inv.t ≤ s.clock) (ht : t ≤ s.clock) (hst : Timed s.clock stack) :
    Clocked (s.call r t path stack) := by
  refine ⟨hl, fun inv hinv => ?_, ⟨by simp, by simp [Frame.user], hst⟩, by simp [St.call]⟩
  simp only [St.call, List.mem_append, List.mem_singleton] at hinv
  rcases hinv with hinv | rfl
  · exact hlog inv hinv
  · exact ht

/-- The clock goes on while nothing runs. -/
theorem Clocked.later (h : Clocked s) (hc : s.clock ≤ s'.clock)
    (hl : s'.lastEventTime = s.lastEventTime) (hlog : s'.log = s.log) (hs : s'.stack = []) : Clocked s' := by
  refine ⟨hl ▸ h.last.trans hc, fun inv hinv => (h.log inv (hlog ▸ hinv)).trans hc, ?_, ?_⟩
  · rw [hs]; trivial
  · intro t fs he
    rw [hs] at he; cases he

/-- Clock, times and stack stay; more may be pending while user code runs. -/
theorem Clocked.congr (h : Clocked s) (hc : s'.clock = s.clock) (hl : s'.lastEventTime = s.lastEventTime)
    (hlog : s'.log = s.log) (hs : s'.stack = s.stack)
    (hp : s'.pendingList = s.pendingList ∨ s.user = true) : Clocked s' := by
  refine ⟨by rw [hl, hc]; exact h.last, by rw [hlog, hc]; exact h.log, by rw [hc, hs]; exact h.stack, ?_⟩
  intro t fs he hne
  rw [hs] at he
  rcases hp with hp | hu
  · rw [hc]; exact h.top t fs he (hp ▸ hne)
  · rw [St.user, he] at hu; cases hu

/-- No `doPendingEvents` is at work while user code runs. -/
theorem isPend_of_user (hu : s.user = true) : ∀ g ∈ s.stack.head?, g.isPend = false := by
  intro g hg
  rcases hst : s.stack with _ | ⟨f, fs⟩
  · rw [hst] at hg; cases hg
  · rw [hst] at hg
    obtain rfl : f = g := by simpa using hg
    rw [St.user, hst] at hu
    cases f with
    | main | cb | drain | timer | write | recv => rfl
    | pend => cases hu

theorem St.cancel_congr {k : Handle} : (s.cancel k).clock = s.clock ∧ (s.cancel k).lastEventTime = s.lastEventTime ∧
    (s.cancel k).log = s.log ∧ (s.cancel k).stack = s.stack ∧ (s.cancel k).pendingList = s.pendingList := by
  unfold St.cancel
  split
  · exact ⟨rfl, rfl, rfl, rfl, rfl⟩
  · exact ⟨rfl, rfl, rfl, rfl, rfl⟩

theorem Timed.tail {clock : AbsTime} {f : Frame} {fs : List Frame} (h : Timed clock (f :: fs)) : Timed clock fs :=
  h.2.2

theorem clocked_step {i : Input} (hd : Due cfg s) (h : Clocked s) (ho : NotAhead s i) (hs : Step cfg s i s') :
    Clocked s' := by
  cases hs with
  | start n hs =>
    refine ⟨le_refl _, h.log, ⟨by simp, by simp [Frame.user], h.stack⟩, by simp [geaStart]⟩
  | advance t hs ht => exact h.later ht rfl rfl hs
  | backwards | insane | cancel | uninitialised => exact h.congr rfl rfl rfl rfl (.inl rfl)
  | ignored | notBlocked => exact h
  | @handle x r hs hx ht he =>
    have htime : r.timeout = x.time := (hd.gea x hx r he).symm
    have hlate : ∀ inv ∈ s.log, inv.t ≤ x.time := fun inv hinv => (h.log inv hinv).trans ht
    refine Clocked.call htime.le hlate htime.le ⟨?_, by simp [St.take, hs], ?_⟩
    · intro t todo he
      cases he; exact .inl htime.le
    · simp [St.take, hs, Timed]
  | sanity hs _ _ _ hc | unset hs _ _ _ _ _ hc | noEvent hs _ _ _ _ _ hc => exact h.later hc rfl rfl hs
  | @expire x k r hs hx hc =>
    have hlate : ∀ inv ∈ s.log, inv.t ≤ x.time := fun inv hinv => (h.log inv hinv).trans hc
    refine Clocked.call (le_refl _) hlate (le_refl _) ⟨by simp, by simp [St.take, hs], ?_⟩
    simp [St.take, hs, Timed]
  | @doTimeout x k r hs hx he _ hk hsl hc =>
    have htime : r.timeout = x.time := (hd.timer x hx k he hk r hsl).symm
    have hlate : ∀ inv ∈ s.log, inv.t ≤ x.time := fun inv hinv => (h.log inv hinv).trans hc
    refine Clocked.call htime.le hlate htime.le ⟨by simp, ?_, by simp, ?_, ?_⟩
    · simp [Frame.isPend]
    · simp [St.take, hs]
    · simp [St.take, hs, Timed]
  | @noHandler k =>
    have hcancel := @St.cancel_congr s k
    exact h.congr hcancel.1 hcancel.2.1 hcancel.2.2.1 hcancel.2.2.2.1 (.inl hcancel.2.2.2.2)
  | @receive k r hu =>
    have hbelow : ∀ g ∈ s.stack.head?, g.isPend = false := by
      rcases hu with hs | hu
      · simp [hs]
      · exact isPend_of_user hu
    refine Clocked.call (le_refl _) h.log (le_refl _) ⟨by simp, ?_, by simp, fun _ => hbelow, h.stack⟩
    simp [Frame.isPend]
  | blocker t e d hu => exact h.congr rfl rfl rfl rfl (.inl rfl)
  | activate t e d hu =>
    unfold St.activate
    dsimp only
    split
    · exact h.congr rfl rfl rfl rfl (.inl rfl)
    · exact h.congr rfl rfl rfl rfl (.inl rfl)
  | setupEvent t e d hu => exact h.congr rfl rfl rfl rfl (.inl rfl)
  | @write k t e d hu =>
    refine Clocked.call h.last h.log (le_refl _) ⟨?_, ?_, by simp, fun _ => isPend_of_user hu, h.stack⟩
    · intro t' todo he
      cases he; exact .inr ⟨rfl, k, _, rfl⟩
    · simp [Frame.isPend]
  | complied hu => exact h.congr rfl rfl rfl rfl (.inr hu)
  | @ret f fs hs hf =>
    have hst := h.stack
    rw [hs] at hst
    refine ⟨h.last, h.log, hst.tail, fun t fs' he hne => ?_⟩
    change fs = .pend t [] :: fs' at he
    subst he
    rcases hst.tail.1 t [] rfl with hle | ⟨-, k, fs'', rfl⟩
    · exact hle
    · exact ho hne t (by simp [St.writeDeadline, hs])

theorem clocked_unwind (h : Clocked s) (hu : Unwind s s') : Clocked s' := by
  have hpop : ∀ {f : Frame} {fs : List Frame}, s.stack = f :: fs → f.user = false → Clocked { s with stack := fs } := by
    intro f fs hs hf
    have hst := h.stack
    rw [hs] at hst
    refine ⟨h.last, h.log, hst.tail, fun t fs' he _ => ?_⟩
    have := hst.2.1 hf (.pend t []) (by rw [show fs = _ from he]; rfl)
    cases this
  cases hu with
  | pop hs hf =>
    rcases hf with ⟨k, rfl⟩ | ⟨k, rfl⟩
    · exact hpop hs rfl
    · exact hpop hs rfl
  | @timer k fs hs =>
    unfold St.settle
    split
    · exact (hpop hs rfl).congr rfl rfl rfl rfl (.inl rfl)
    · exact hpop hs rfl
  | done hs hf =>
    rcases hf with ⟨rfl, -⟩ | rfl
    · exact hpop hs rfl
    · exact hpop hs rfl
  | @take f fs t p todo hs hf hp =>
    have hst := h.stack
    rw [hs] at hst
    have htime : t ≤ s.clock := by
      rcases hf with ⟨-, rfl⟩ | rfl
      · exact h.last
      · exact h.top t fs hs (by simp [hp])
    have huser : f.user = false := by rcases hf with ⟨rfl, -⟩ | rfl <;> rfl
    refine ⟨h.last, h.log, ⟨?_, fun _ => hst.2.1 huser, hst.tail⟩, by simp⟩
    intro t' todo' he
    cases he; exact .inl htime
  | @run t p todo fs hs ht =>
    have hst := h.stack
    rw [hs] at hst
    have htime : t ≤ s.clock := by
      rcases hst.1 t _ rfl with hle | ⟨hnil, -⟩
      · exact hle
      · cases hnil
    refine Clocked.call htime h.log htime ⟨?_, hst.2.1, hst.tail⟩
    intro t' todo' he
    cases he; exact .inl htime
  | @stuck t p todo fs hs ht =>
    have hst := h.stack
    rw [hs] at hst
    have htime : t ≤ s.clock := by
      rcases hst.1 t _ rfl with hle | ⟨hnil, -⟩
      · exact hle
      · cases hnil
    refine ⟨h.last, h.log, ⟨?_, hst.2.1, hst.tail⟩, fun t' fs' he _ => ?_⟩
    · intro t' todo' he
      cases he; exact .inl htime
    · cases he; exact htime

theorem clocked_init (status : Handle → Status) : Clocked (St.init status) :=
  ⟨le_refl _, by simp [St.init], trivial, by simp [St.init]⟩

theorem clocked_reaches (hs : Reaches cfg NotAhead s) : Clocked s := by
  have hinit : ∀ status, Due cfg (St.init status) := fun status => ⟨by simp [St.init], by simp [St.init]⟩
  obtain ⟨-, -, hclocked⟩ := hs.invariant_wf (I := fun s => Due cfg s ∧ Clocked s)
    (fun status => ⟨hinit status, clocked_init status⟩)
    (fun t i u hwf hI ho hstep => ⟨due_step hwf hI.1 hstep, clocked_step hI.1 hI.2 ho hstep⟩)
    fun t u _ hI hun => ⟨due_unwind hI.1 hun, clocked_unwind hI.2 hun⟩
  exact hclocked

/-- **The event time is not ahead.** As long as no write-mode `waitFor` hands a deadline in the
future to what is pending, the callback a step calls gets a time that is not later than the clock,
and so is `GEA.lastEventTime`. -/
theorem event_not_ahead (cfg : Cfg) (s s' : St) (i : Input) (hs : Reaches cfg NotAhead s) (ho : NotAhead s i)
    (hstep : step cfg s i = some s') :
    s'.lastEventTime ≤ s'.clock ∧ ∀ inv ∈ s'.log.drop s.log.length, inv.t ≤ s'.clock := by
  have hc : Clocked s' := clocked_reaches (hs.tail ho hstep)
  exact ⟨hc.last, fun inv hinv => hc.log inv (List.mem_of_mem_drop hinv)⟩

/-- A write with the deadline 50 while a `DependHandle` is triggered: its callback gets 50 at the
clock 0. -/
def writeRun : List Input := [.start 1, .waitFor 1 100 0 0, .complied 1, .waitFor 4 50 0 0]

theorem event_ahead :
    ¬∀ (cfg : Cfg) (s s' : St) (i : Input), Reaches cfg Lts.Any s → step cfg s i = some s' →
      s'.lastEventTime ≤ s'.clock ∧ ∀ inv ∈ s'.log.drop s.log.length, inv.t ≤ s'.clock := by
  intro h
  have hs : Reaches sampleCfg Lts.Any _ := reaches_get writeRun (by decide)
  have hahead := (h sampleCfg _ _ .ret hs (Option.some_get (by decide)).symm).1
  revert hahead
  decide

/-- The same with a deadline that is over: the pending callback gets it. -/
def lateWriteRun : List Input := [.start 1, .waitFor 1 100 0 0, .complied 1, .waitFor 4 (-5) 0 0]

theorem event_not_ahead_lateWrite :
    let s := (Lts.execOk (step sampleCfg) NotAhead St.fresh lateWriteRun).get (by decide)
    let s' := (step sampleCfg s .ret).get (by decide)
    s'.lastEventTime ≤ s'.clock ∧ ∀ inv ∈ s'.log.drop s.log.length, inv.t ≤ s'.clock :=
  event_not_ahead sampleCfg _ _ .ret (reaches_get lateWriteRun (by decide)) (by decide) (Option.some_get (by decide)).symm

end Ns2
