import Awds.Gea.Basic
import Awds.Lib.Multimap

/-!
# The ns-2 backend: `ns2-gea/ns-2/gea/`

| here | there |
| --- | --- |
| `Cfg`                     | `ShadowHandle::handleType`, `ShadowUdpHandle::mode`, `ShadowHandle::node` |
| `St.queue`, `dispatch`    | the queue of the `Scheduler`, `Scheduler::dispatch` (`common/scheduler.cc:141`) |
| `St.timer`, `St.cancel`, `St.resched`, `timerHandle` | `TimerHandler` (`common/timer-handler.cc`), one per `DependHandle` and `UdpHandle` |
| `St.slot`                 | `e`, `data` (and `timeout`) of a `ShadowDepend` or `ShadowUdpHandle` |
| `handle`, `resume`        | `ShadowEventHandler::handle` (:89), `doPendingEvents` (:98) |
| `St.waitFor`              | `ShadowEventHandler::waitFor` (:55), `ShadowDepend::activate`, `ShadowUdpHandle::setup_event` |
| `St.complied`, `expire`   | `ShadowDepend::complied` (`DependHandle.cc:35`), `ShadowDepend::expire` (`ShadowDepend.cc:23`) |
| `processData`, `doTimeout` | `ShadowUdpHandle::process_data` (:184), `do_timeout` (:266) |
| `gea_start`               | `GeaPlugin.cc:28`, up to the call of `gea_main` |

Here callbacks can nest, so the state has a stack: what the C++ code still has to do when the user
code above it returns (`Frame`). Between two pieces of user code the backend runs by itself
(`resume`). User code is arbitrary (`Input.waitFor`, `Input.complied`, `Input.ret`). Which event the
scheduler takes next is left open, as are the other events of the simulation (`Input.advance`).
All times are whole ticks, those of the other events and of `gea_start` too: there they are `double`s,
and `AbsTime::now()` cuts the clock to a tick, so that a timer set between two ticks is late by the rest.
Packets arrive from the scheduler or out of a `UdpHandle::write` of the running user code
(`UdpAgent::sendmsg` calls `target_->recv`), `Input.arrive`. An assertion or an `abort` ends the
run with a `Failure`. `St.regs`, `St.log`, `St.cancels`, `St.replaced` are ours: they record.
-/

namespace Ns2

open Gea

abbrev Node := Nat

/-- The `HandleType` (`ShadowHandle.h:24`), with the mode of a `UdpHandle`. -/
inductive HandleKind where
  | blocker | depend | udpRead | udpWrite
deriving DecidableEq, Repr

structure Cfg where
  kind : Handle → HandleKind
  node : Handle → Node

/-- `TimerHandler::TimerStatus`. -/
inductive TimerStatus where
  | idle | pending | handling
deriving DecidableEq, Repr

/-- A scheduled `GeaNsEvent`, or the `event_` of a handle's timer. -/
inductive Ev where
  | gea (reg : Reg)
  | timer (h : Handle)
deriving DecidableEq, Repr

structure Scheduled where
  time : AbsTime
  ev : Ev
deriving DecidableEq, Repr

/-- `ShadowEventHandler::EventDescr`; `h`, `e` and `data` are those of `reg`. -/
structure EventDescr where
  reg : Reg
  t : AbsTime
deriving DecidableEq, Repr

/-- What calls a callback. -/
inductive Path where
  | handle | doPendingEvents | expire | process_data | do_timeout | waitFor
deriving DecidableEq, Repr

/-- A callback invocation: `reg.e(reg.h, t, reg.data)`, with `reg.h->status` at that moment. -/
structure Invocation where
  reg : Reg
  t : AbsTime
  status : Status
  path : Path
deriving DecidableEq, Repr

/-- The call stack: user code (`main`, `cb`), and what the backend does when it returns. -/
inductive Frame where
  | main
  | cb (reg : Reg)
  /-- `doPendingEvents(t)` with the rest of `todo` -/
  | pend (t : AbsTime) (todo : List EventDescr)
  /-- `doPendingEvents(GEA.lastEventTime)` (`ShadowUdpHandle.cc:226`, `:284`) -/
  | drain
  /-- `TimerHandler::handle` behind `expire` (`timer-handler.cc:100`) -/
  | timer (h : Handle)
  /-- `waitFor` on a write-mode `UdpHandle` returns to its caller -/
  | write (h : Handle)
  /-- `process_data` returns to the `UdpHandle::write` it was called from -/
  | recv (h : Handle)
deriving DecidableEq, Repr

def Frame.user : Frame → Bool
  | .main | .cb _ => true
  | _ => false

/-- Why the simulation aborted. -/
inductive Failure where
  /-- `scheduler.cc:143` -/
  | backwards
  /-- `timer-handler.cc:58` -/
  | cancel (h : Handle)
  /-- `timer-handler.cc:96` -/
  | sanity (h : Handle)
  /-- `ShadowDepend.cc:39` -/
  | activate (h : Handle)
  /-- `ShadowEventHandler.cc:113` -/
  | notPending (h : Handle)
  /-- `ShadowUdpHandle.cc:211`, `:269` -/
  | noEvent (h : Handle)
  /-- `ShadowUdpHandle.cc:249` -/
  | insane (h : Handle)
  /-- `DependHandle.cc:43` reads `e`; anything may happen from there on -/
  | uninitialised (h : Handle)
deriving DecidableEq, Repr

/-- The handle whose assertion or timer failed. -/
def Failure.handle? : Failure → Option Handle
  | .backwards => none
  | .cancel h | .sanity h | .activate h | .notPending h | .noEvent h | .insane h | .uninitialised h => some h

structure St where
  clock : AbsTime
  queue : List Scheduled
  currentNode : Node
  lastEventTime : AbsTime
  status : Handle → Status
  slot : Handle → Option Reg
  timer : Handle → TimerStatus
  pendingList : List EventDescr
  stack : List Frame
  failed : Option Failure
  /-- Registrations made so far. -/
  regs : List Reg
  log : List Invocation
  /-- For each timer `doPendingEvents` cancelled, the entry's registration and the timer's. -/
  cancels : List (Reg × Option Reg)
  /-- The registrations on a `UdpHandle` that gave way to a later one. -/
  replaced : List Reg

/-- Before the first `gea_start`. Neither `Handle::status` nor `ShadowDepend::e` is initialised: `status` holds
anything, and `none` stands for an `e` that nothing was stored in. -/
def St.init (status : Handle → Status) : St where
  clock := 0
  queue := []
  currentNode := 0
  lastEventTime := 0
  status := status
  slot := fun _ => none
  timer := fun _ => .idle
  pendingList := []
  stack := []
  failed := none
  regs := []
  log := []
  cancels := []
  replaced := []

/-- User code is running. -/
def St.user (s : St) : Bool :=
  match s.stack with
  | f :: _ => f.user
  | [] => false

def St.fail (s : St) (f : Failure) : St := { s with failed := some f }

/-- `e(h, t, data)`, with `stack` below it. -/
def St.call (s : St) (r : Reg) (t : AbsTime) (path : Path) (stack : List Frame) : St :=
  { s with log := s.log ++ [⟨r, t, s.status r.h, path⟩], stack := .cb r :: stack }

/-! ## Scheduler and timers -/

def St.insert (s : St) (x : Scheduled) : St := { s with queue := Multimap.insert Scheduled.time x s.queue }

/-- `Scheduler::cancel(&event_)`. -/
def St.remove (s : St) (h : Handle) : St := { s with queue := s.queue.filter (·.ev ≠ .timer h) }

/-- `TimerHandler::cancel` (:56). -/
def St.cancel (s : St) (h : Handle) : St :=
  if s.timer h = .pending then { s.remove h with timer := Function.update s.timer h .idle } else s.fail (.cancel h)

/-- `TimerHandler::resched` (:85), to the time `t`. -/
def St.resched (s : St) (h : Handle) (t : AbsTime) : St :=
  let queue := if s.timer h = .pending then (s.remove h).queue else s.queue
  { s with
    queue := Multimap.insert Scheduled.time ⟨t, .timer h⟩ queue
    timer := Function.update s.timer h .pending }

/-! ## What user code calls -/

/-- `ShadowDepend::activate` (:32). -/
def St.activate (s : St) (r : Reg) : St :=
  let s := { s with slot := Function.update s.slot r.h (some r) }
  if s.timer r.h = .pending then s.fail (.activate r.h) else s.resched r.h r.timeout

/-- `ShadowUdpHandle::setup_event` (:255). -/
def St.setupEvent (s : St) (r : Reg) : St :=
  { s with
    slot := Function.update s.slot r.h (some r)
    replaced := s.replaced ++ (s.slot r.h).toList }.resched r.h r.timeout

/-- `ShadowEventHandler::waitFor` (:55). A write-mode `UdpHandle` calls `event` at once (:79). -/
def St.waitFor (cfg : Cfg) (s : St) (h : Handle) (timeout : AbsTime) (e : Event) (data : Data) : St :=
  let r : Reg := ⟨s.regs.length, h, timeout, e, data⟩
  let s := { s with status := Function.update s.status h .blocked, regs := s.regs ++ [r] }
  match cfg.kind h with
  | .blocker => s.insert ⟨timeout, .gea r⟩
  | .depend => s.activate r
  | .udpRead => s.setupEvent r
  | .udpWrite =>
    { s with status := Function.update s.status h .ready }.call r s.clock .waitFor
      (.pend timeout [] :: .write h :: s.stack)

/-- `ShadowDepend::complied` (`DependHandle.cc:35`). -/
def St.complied (s : St) (d : Handle) : St :=
  if s.status d ≠ .blocked then s
  else match s.slot d with
    | none => s.fail (.uninitialised d)
    | some r =>
      { s with
        status := Function.update s.status d .ready
        pendingList := s.pendingList ++ [⟨r, s.lastEventTime⟩] }

/-! ## Entry points of the scheduler -/

/-- `ShadowEventHandler::handle` (:89). -/
def handle (cfg : Cfg) (s : St) (r : Reg) : St :=
  { s with currentNode := cfg.node r.h, lastEventTime := r.timeout }.call r r.timeout .handle
    (.pend r.timeout [] :: s.stack)

/-- `ShadowDepend::expire` (`ShadowDepend.cc:23`). -/
def expire (s : St) (h : Handle) (stack : List Frame) : St :=
  match s.slot h with
  | none => s
  | some r =>
    { s with status := Function.update s.status h .timeout, lastEventTime := s.clock }.call r s.clock .expire stack

/-- `ShadowUdpHandle::do_timeout` (:266). -/
def doTimeout (cfg : Cfg) (s : St) (h : Handle) (stack : List Frame) : St :=
  match s.slot h with
  | none => s.fail (.noEvent h)
  | some r =>
    { s with
      slot := Function.update s.slot h none
      status := Function.update s.status h .timeout
      currentNode := cfg.node h
      lastEventTime := r.timeout }.call r r.timeout .do_timeout (.drain :: stack)

/-- `TimerHandler::handle` (:94), with the `expire` of a `ShadowDepend` or a `GeaUdpTimer`. -/
def timerHandle (cfg : Cfg) (s : St) (h : Handle) : St :=
  if s.timer h = .pending then
    let s' := { s with timer := Function.update s.timer h .handling }
    match cfg.kind h with
    | .depend => expire s' h (.timer h :: s.stack)
    | _ => doTimeout cfg s' h (.timer h :: s.stack)
  else s.fail (.sanity h)

/-- `ShadowUdpHandle::process_data` (:184). A packet nobody waits for is thrown away. -/
def processData (cfg : Cfg) (s : St) (h : Handle) : St :=
  match s.status h with
  | .blocked =>
    if s.timer h = .pending then
      let s' := { s.cancel h with status := Function.update s.status h .ready }
      match s.slot h with
      | none => s'.fail (.noEvent h)
      | some r =>
        { s' with
          slot := Function.update s.slot h none
          currentNode := cfg.node h
          lastEventTime := s.clock }.call r s.clock .process_data (.drain :: .recv h :: s.stack)
    else s.cancel h
  | .error | .timeout | .ready => s
  | .undefined => s.fail (.insane h)

/-- `Scheduler::dispatch` (:141) of the queued event `x`. -/
def dispatch (cfg : Cfg) (s : St) (x : Scheduled) : St :=
  if x.time < s.clock then s.fail .backwards
  else
    let s' := { s with queue := s.queue.erase x, clock := x.time }
    match x.ev with
    | .gea r => handle cfg s' r
    | .timer h => timerHandle cfg s' h

/-- `gea::gea_start` (`GeaPlugin.cc:28`) on a node, up to the call of `gea_main`. -/
def geaStart (s : St) (n : Node) : St :=
  { s with currentNode := n, lastEventTime := s.clock, stack := .main :: s.stack }

/-! ## Between two pieces of user code -/

/-- "If it wasn't rescheduled, it's done" (`timer-handler.cc:100`). -/
def St.settle (s : St) (h : Handle) : St :=
  if s.timer h = .handling then { s with timer := Function.update s.timer h .idle } else s

/-- One entry of `todo` (:107-121), with `stack` below: its timer is cancelled, its callback called. -/
def runPending (s : St) (t : AbsTime) (p : EventDescr) (stack : List Frame) : St :=
  if s.timer p.reg.h = .pending then
    { s.cancel p.reg.h with lastEventTime := t, cancels := s.cancels ++ [(p.reg, s.slot p.reg.h)] }.call
      p.reg t .doPendingEvents stack
  else { s with stack := stack }.fail (.notPending p.reg.h)

/-- `doPendingEvents(t)` from its `while` on (:100), when `todo` is done. `none`: there is nothing pending. -/
def doPendingEvents (s : St) (t : AbsTime) (stack : List Frame) : Option St :=
  match s.pendingList with
  | [] => none
  | p :: todo => some (runPending { s with pendingList := [] } t p (.pend t todo :: stack))

/-- User code has returned: run the frames below it, up to the next piece of user code. -/
def resume : List Frame → St → St
  | [], s => { s with stack := [] }
  | .main :: fs, s => { s with stack := .main :: fs }
  | .cb r :: fs, s => { s with stack := .cb r :: fs }
  | .pend t (p :: todo) :: fs, s => runPending s t p (.pend t todo :: fs)
  | .pend t [] :: fs, s => match doPendingEvents s t fs with
    | none => resume fs s
    | some s' => s'
  | .drain :: fs, s => match doPendingEvents s s.lastEventTime fs with
    | none => resume fs s
    | some s' => s'
  | .timer h :: fs, s => resume fs (s.settle h)
  | .write _ :: fs, s | .recv _ :: fs, s => resume fs s

/-- What the environment decides: the next event of the simulation, and what the running user code
does. -/
inductive Input where
  /-- `gea_start` on a node -/
  | start (n : Node)
  /-- an event of the simulation that is not GEA's -/
  | advance (t : AbsTime)
  | dispatch (x : Scheduled)
  /-- a packet for the `UdpHandle` `h` -/
  | arrive (h : Handle)
  | waitFor (h : Handle) (timeout : AbsTime) (e : Event) (data : Data)
  | complied (d : Handle)
  | ret

def step (cfg : Cfg) (s : St) (i : Input) : Option St :=
  if s.failed.isSome then none
  else match i with
    | .start n => if s.stack = [] then some (geaStart s n) else none
    | .advance t => if s.stack = [] ∧ s.clock ≤ t then some { s with clock := t } else none
    | .dispatch x => if s.stack = [] ∧ x ∈ s.queue then some (dispatch cfg s x) else none
    | .arrive h =>
      if cfg.kind h = .udpRead ∧ (s.stack = [] ∨ s.user = true) then some (processData cfg s h) else none
    | .waitFor h t e d => if s.user then some (s.waitFor cfg h t e d) else none
    | .complied d => if s.user ∧ cfg.kind d = .depend then some (s.complied d) else none
    | .ret => match s.stack with
      | .main :: fs | .cb _ :: fs => some (resume fs s)
      | _ => none

end Ns2
