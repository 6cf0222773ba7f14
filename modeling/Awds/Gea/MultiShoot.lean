import Mathlib

/-!
# Periodic events: `MultiShootTimerEvent`

| here | there |
| --- | --- |
| `MultiShootTimerEvent` | `MultiShootTimerEvent.h:8`, with the `alive` of `MultiShootEvent` (`MultiShootEvent.h:8`) |
| `Firing`               | one call of `event`: its time, the next result of `rand()`, and whether `handle` calls `waitagain` |
| `Periodic.event`       | `MultiShootTimerEvent::event` (`MultiShootTimerEvent.cc:6`) |
| `Periodic.dispatch`    | the event loop calls the callback of a registration and drops the registration |

Times are rational seconds. `none` is a call on the object behind its `delete`.
-/

namespace Gea

structure MultiShootTimerEvent where
  alive : Bool
  duration : ℚ
  jitter : Nat
  jitterbase : ℚ
deriving DecidableEq

structure Firing where
  t : ℚ
  rand : Nat
  waitagain : Bool
deriving DecidableEq

namespace MultiShootTimerEvent

/-- The local `d` (:13), with `unsigned` subtraction. -/
def d (self : MultiShootTimerEvent) (rand : Nat) : ℚ :=
  if self.jitter ≠ 0 then
    self.duration + ((rand % self.jitter + (2 ^ 32 - self.jitter / 2)) % 2 ^ 32 : Nat) * self.jitterbase
  else self.duration

/-- What a result of `rand()` is meant to add to the duration. -/
def offset (self : MultiShootTimerEvent) (rand : Nat) : ℚ :=
  ((rand % self.jitter : Nat) - (self.jitter / 2 : Nat) : ℚ) * self.jitterbase

end MultiShootTimerEvent

/-- The object and its registrations; `fired` and `registered` record the calls of `event` and the deadlines it
hands to `waitFor`. -/
structure Periodic where
  object : Option MultiShootTimerEvent
  deleted : Nat
  pending : List ℚ
  fired : List Firing
  registered : List ℚ
deriving DecidableEq

namespace Periodic

def waitFor (deadline : ℚ) (s : Periodic) : Periodic :=
  { s with pending := s.pending ++ [deadline], registered := s.registered ++ [deadline] }

/-- `MultiShootTimerEvent::event` (:6). -/
def event (f : Firing) (s : Periodic) : Option Periodic :=
  match s.object with
  | none => none
  | some self =>
    -- `alive = false; handle(h, t);`
    let self := { self with alive := f.waitagain }
    let s := { s with object := some self, fired := s.fired ++ [f] }
    if !self.alive then some { s with object := none, deleted := s.deleted + 1 }
    else
      let _d := self.d f.rand -- `waitFor` (:15) does not get it
      some (s.waitFor (f.t + self.duration))

/-- A registration is dispatched, if there is one. -/
def dispatch (s : Periodic) (f : Firing) : Option Periodic :=
  match s.pending with
  | [] => some s
  | _ :: rest => event f { s with pending := rest }

def run (s : Periodic) (fs : List Firing) : Option Periodic := fs.foldlM dispatch s

/-- `wait()` (`MultiShootTimerEvent.h:14`) of a new object with a jitter that was set, at `now`. -/
def wait (self : MultiShootTimerEvent) (now : ℚ) : Periodic :=
  { object := some self, deleted := 0, pending := [now + self.duration], fired := [], registered := [] }

/-- The firings up to the first one that does not wait again. -/
def firings : List Firing → List Firing
  | [] => []
  | f :: fs => f :: if f.waitagain then firings fs else []

/-- What periodic events with jitter are: the object fires until `handle` does not wait again, is deleted then,
once, and waits for nothing any more; and the next deadline is the duration later, give or take the jitter. -/
structure Law (timer : MultiShootTimerEvent) (fs : List Firing) (s : Periodic) : Prop where
  fired : s.fired = firings fs
  going : (∀ f ∈ fs, f.waitagain = true) → s.deleted = 0 ∧ s.pending.length = 1
  ended : (∃ f ∈ fs, f.waitagain = false) → s.object = none ∧ s.deleted = 1 ∧ s.pending = []
  deadlines : s.registered = (fs.takeWhile Firing.waitagain).map fun f => f.t + timer.duration + timer.offset f.rand
  within : ∀ f ∈ fs.takeWhile Firing.waitagain, |timer.offset f.rand| ≤ timer.jitter / 2 * |timer.jitterbase|

/-! ## Runs -/

variable {timer : MultiShootTimerEvent} {s : Periodic}

theorem run_cons (s : Periodic) (f : Firing) (fs : List Firing) : s.run (f :: fs) = (s.dispatch f).bind fun t => t.run fs :=
  rfl

/-- Nothing happens without a registration. -/
theorem run_idle (h : s.pending = []) : ∀ fs, s.run fs = some s
  | [] => rfl
  | f :: fs => by
    rw [run_cons, dispatch, h]
    exact run_idle h fs

/-- The next firing, of an object with one registration. -/
theorem dispatch_eq {p : ℚ} (ho : s.object = some timer) (hp : s.pending = [p]) (f : Firing) :
    s.dispatch f = some (if f.waitagain then
        { s with
          object := some { timer with alive := true }, pending := [f.t + timer.duration], fired := s.fired ++ [f]
          registered := s.registered ++ [f.t + timer.duration] }
      else { s with object := none, deleted := s.deleted + 1, pending := [], fired := s.fired ++ [f] }) := by
  cases hw : f.waitagain with
  | false => simp [dispatch, hp, event, ho, hw]
  | true => simp [dispatch, hp, event, ho, hw, waitFor]

/-- What a run makes of an object with one registration. -/
structure Ran (timer : MultiShootTimerEvent) (fs : List Firing) (s s' : Periodic) : Prop where
  fired : s'.fired = s.fired ++ firings fs
  registered : s'.registered = s.registered ++ (fs.takeWhile Firing.waitagain).map fun f => f.t + timer.duration
  going : (∀ f ∈ fs, f.waitagain = true) → s'.deleted = s.deleted ∧ s'.pending.length = 1
  ended : (∃ f ∈ fs, f.waitagain = false) → s'.object = none ∧ s'.deleted = s.deleted + 1 ∧ s'.pending = []

theorem run_ran : ∀ (fs : List Firing) (timer : MultiShootTimerEvent) (s : Periodic) (p : ℚ), s.object = some timer →
    s.pending = [p] → ∃ s', s.run fs = some s' ∧ Ran timer fs s s'
  | [], timer, s, p, _, hp => ⟨s, rfl, by simp [firings], by simp, fun _ => ⟨rfl, by rw [hp]; rfl⟩, by simp⟩
  | f :: fs, timer, s, p, ho, hp => by
    rw [run_cons, dispatch_eq ho hp, Option.bind_some]
    cases hw : f.waitagain with
    | false =>
      -- the object is gone, and nothing is left to dispatch
      rw [if_neg Bool.false_ne_true, run_idle rfl]
      exact ⟨_, rfl, by simp [firings, hw], by simp [hw], fun hall => by simp [hw] at hall,
        fun _ => ⟨rfl, rfl, rfl⟩⟩
    | true =>
      rw [if_pos rfl]
      obtain ⟨s', hrun, h⟩ := run_ran fs { timer with alive := true }
        { s with
          object := some { timer with alive := true }, pending := [f.t + timer.duration], fired := s.fired ++ [f]
          registered := s.registered ++ [f.t + timer.duration] } _ rfl rfl
      refine ⟨s', hrun, ?_, ?_, fun hall => h.going (List.forall_mem_cons.1 hall).2, fun hex => h.ended ?_⟩
      · rw [h.fired, firings, hw, if_pos rfl, List.append_assoc]
        rfl
      · rw [h.registered, List.takeWhile_cons_of_pos hw, List.map_cons, List.append_assoc]
        rfl
      · obtain ⟨g, hg, hgw⟩ := hex
        rcases List.mem_cons.1 hg with rfl | hg
        · rw [hw] at hgw; cases hgw
        · exact ⟨g, hg, hgw⟩

/-- The jitter is at most half of `jitter` steps, to either side. -/
theorem offset_within (hj : 0 < timer.jitter) (r : Nat) : |timer.offset r| ≤ timer.jitter / 2 * |timer.jitterbase| := by
  have hlt := Nat.mod_lt r hj
  rw [MultiShootTimerEvent.offset, abs_mul]
  refine mul_le_mul_of_nonneg_right ?_ (abs_nonneg _)
  generalize r % timer.jitter = a at hlt
  have h1 : timer.jitter / 2 * 2 ≤ timer.jitter := Nat.div_mul_le_self _ _
  have h2 : timer.jitter ≤ timer.jitter / 2 * 2 + 1 := by omega
  generalize timer.jitter / 2 = b at h1 h2
  have h1' : (b : ℚ) * 2 ≤ timer.jitter := by exact_mod_cast h1
  have h2' : (timer.jitter : ℚ) ≤ b * 2 + 1 := by exact_mod_cast h2
  have hlt' : (a : ℚ) + 1 ≤ timer.jitter := by exact_mod_cast hlt
  have ha : (0 : ℚ) ≤ a := Nat.cast_nonneg a
  rw [abs_le]
  constructor <;> linarith

/-- **A periodic event with jitter never touches its deleted object, and keeps its law exactly if every result of
`rand()` that is used for a next deadline means no jitter: the deadline is computed without it.** -/
theorem periodic_law (hj : 0 < timer.jitter) (now : ℚ) (fs : List Firing) :
    ∃ s, (wait timer now).run fs = some s ∧
      (Law timer fs s ↔ ∀ f ∈ fs.takeWhile Firing.waitagain, timer.offset f.rand = 0) := by
  obtain ⟨s, hrun, h⟩ := run_ran fs timer (wait timer now) (now + timer.duration) rfl rfl
  refine ⟨s, hrun, fun hl f hf => ?_, fun hz => ?_⟩
  · have heq := h.registered.symm.trans hl.deadlines
    have hmap := List.map_inj_left.1 heq f hf
    linarith
  · refine ⟨h.fired, fun hall => h.going hall, fun hex => h.ended hex, ?_, fun f _ => offset_within hj f.rand⟩
    rw [h.registered]
    refine List.map_congr_left fun f hf => ?_
    rw [hz f hf, add_zero]

/-- The result 6 is in the middle of a jitter of 4, so the deadline without the jitter is the right one. -/
theorem periodic_law_middle :
    ∃ s, (wait ⟨true, 1, 4, 1 / 2⟩ 0).run [⟨1, 6, true⟩, ⟨2, 0, false⟩] = some s ∧
      Law ⟨true, 1, 4, 1 / 2⟩ [⟨1, 6, true⟩, ⟨2, 0, false⟩] s := by
  obtain ⟨s, hrun, h⟩ := @periodic_law ⟨true, 1, 4, 1 / 2⟩ (by decide) 0
    [⟨1, 6, true⟩, ⟨2, 0, false⟩]
  refine ⟨s, hrun, h.2 fun f hf => ?_⟩
  obtain rfl : f = ⟨1, 6, true⟩ := by simpa using hf
  norm_num [MultiShootTimerEvent.offset]

/-- Two seconds, a jitter of 4 half seconds: the deadline after a firing at 2 with the result 0 is 4 and not 3. -/
theorem jitter_dropped :
    ¬ ∀ (timer : MultiShootTimerEvent) (now : ℚ) (fs : List Firing), 0 < timer.jitter →
      ∃ s, (wait timer now).run fs = some s ∧ Law timer fs s := by
  intro h
  obtain ⟨s, hrun, hl⟩ := h ⟨true, 2, 4, 1 / 2⟩ 0 [⟨2, 0, true⟩] (by decide)
  have hd := hl.deadlines
  obtain rfl : _ = s := Option.some.inj hrun
  simp [wait, waitFor, MultiShootTimerEvent.offset] at hd

end Periodic

end Gea
