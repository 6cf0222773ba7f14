import Awds.Gea.Basic
import Awds.Lib.Multimap

/-!
# The POSIX event loop: `gea/src/ShadowEventHandler.cc`

| here | there |
| --- | --- |
| `ShadowHandle`, `Cfg`  | `gea/posix/ShadowHandle.h`, and the inner `UnixFdHandle` of a `UdpHandle` (`subUdpHandle`) |
| `St.eventList`         | `EventList = std::multimap<AbsTime, EventDescr>` (`posix/ShadowEventHandler.h:37`) |
| `St.triggered`         | `ShadowDepend::triggered` (`posix/ShadowDependHandle.h:26`) |
| `fillFdSets`           | `fill_fd_sets` (:55) |
| `SelectCall.Answers`   | `select(2)` |
| `removeIf`             | `remove_if` (:198) with `activeFdHandlePred` (:133) or `activeDepPred` (:174) |
| `resetDepTrigger`      | `resetDepTrigger` (:219) over the batch (:305) |
| `step`                 | `ShadowEventHandler::run` (:235), one step per `select` call, callback action and callback return |
| `waitFor`, `complied`  | `ShadowEventHandler::waitFor` (:314), `ShadowDepend::complied` (`ShadowDependHandle.cc:6`) |

A callback is arbitrary code: while one runs, the environment may make it call `waitFor` or
`complied` any number of times (`Input.waitFor`, `Input.complied`) and then return (`Input.ret`).
`clock k` is the `k`-th value `AbsTime::now()` answers to the loop. `St.regs`, `St.log` and the
number of a `Reg` are ours: they record every registration and every callback invocation.
Assertions on `e` and on the size of `elist` cannot fail and are left out. The program is over
(`Ctl.aborted`) when `select` fails, but for `EINTR` (:271), and when `FD_SET` stores outside of its
set, behind which anything may happen.
-/

namespace Posix

open Gea

/-- `ShadowHandle::HandleType` (`ShadowHandle.h:39`). -/
inductive HandleType where
  | unixFd | blocker | depend | udp
deriving DecidableEq, Repr

/-- `PosixHandleMode` (`ShadowHandle.h:17`). -/
inductive PosixHandleMode where
  | read | write | exception
deriving DecidableEq, Repr

structure ShadowHandle where
  handleType : HandleType
  unixFd : Int
  unixMode : PosixHandleMode
deriving DecidableEq, Repr

/-- The handles of the program: what `Handle::shadowHandle` and `UdpHandle::subUdpHandle` point at. -/
structure Cfg where
  shadowHandle : Handle → ShadowHandle
  subUdpHandle : Handle → Handle

def Cfg.isUnixFdHandle (cfg : Cfg) (h : Handle) : Bool := (cfg.shadowHandle h).handleType == .unixFd
def Cfg.isUdpHandle (cfg : Cfg) (h : Handle) : Bool := (cfg.shadowHandle h).handleType == .udp
def Cfg.isDepend (cfg : Cfg) (h : Handle) : Bool := (cfg.shadowHandle h).handleType == .depend

/-- `uh` of :73-77 and :137-141: the `UnixFdHandle` whose descriptor is watched for `h`. -/
def Cfg.unixFdHandle (cfg : Cfg) (h : Handle) : Handle :=
  if cfg.isUnixFdHandle h then h else cfg.subUdpHandle h

/-- The number of bits of an `fd_set`. -/
def FD_SETSIZE : Nat := 1024

instance : NeZero FD_SETSIZE := ⟨by decide⟩

/-- An `fd_set`: the bits that are set. -/
abbrev FdSet := List (Fin FD_SETSIZE)

/-- `fd_set *set[]` (:256), indexed by mode. -/
abbrev FdSets := PosixHandleMode → FdSet

/-- A descriptor that an `fd_set` has a bit for. -/
def InFdSet (fd : Int) : Prop := 0 ≤ fd ∧ fd < FD_SETSIZE

instance (fd : Int) : Decidable (InFdSet fd) := inferInstanceAs (Decidable (_ ∧ _))

/-- `none`: the store is outside of the set. -/
def FD_SET (fd : Int) (set : FdSet) : Option FdSet :=
  if h : InFdSet fd then some (⟨fd.toNat, (Int.toNat_lt h.1).2 h.2⟩ :: set) else none

def FD_ISSET (fd : Int) (set : FdSet) : Bool := set.any fun b => (b : Int) = fd

/-- Body of the loop of `fill_fd_sets` (:65-96). -/
def fillFdSet (cfg : Cfg) (acc : FdSets × Int) (r : Reg) : Option (FdSets × Int) :=
  if cfg.isUnixFdHandle r.h || cfg.isUdpHandle r.h then
    let sh := cfg.shadowHandle (cfg.unixFdHandle r.h)
    (FD_SET sh.unixFd (acc.1 sh.unixMode)).map fun set =>
      (Function.update acc.1 sh.unixMode set, if acc.2 > sh.unixFd then acc.2 else sh.unixFd)
  else some acc

/-- `fill_fd_sets` (:55): the sets and `max_fd`. -/
def fillFdSets (cfg : Cfg) (l : List Reg) : Option (FdSets × Int) :=
  l.foldlM (fillFdSet cfg) (fun _ => [], 0)

/-- `struct timeval`. -/
structure Timeval where
  sec : Int
  usec : Int
deriving DecidableEq, Repr

/-- `FixNum::offset` (`Time.h:22`): ticks per second. -/
def offset : Int := 0x10000000

/-- `static_cast<int>` of a `double`: what does not fit becomes `INT_MIN`. -/
def toInt (x : Int) : Int := if -2 ^ 31 ≤ x ∧ x < 2 ^ 31 then x else -2 ^ 31

/-- `double2Timeval` (:49) of `static_cast<double>(d)`, in exact arithmetic. -/
def double2Timeval (d : Int) : Timeval := ⟨toInt (d / offset), (d % offset) * 1000000 / offset⟩

/-- The arguments of one `::select` call (:267). -/
structure SelectCall where
  sets : FdSets
  maxFd : Int
  tv : Timeval

/-- What `::select` answers: 0, the descriptors left in the three sets, or -1. -/
inductive SelectResult where
  | timeout
  | ready (sets : FdSets)
  | error

/-- A time `select` takes. -/
def Timeval.Valid (tv : Timeval) : Prop := 0 ≤ tv.sec ∧ 0 ≤ tv.usec ∧ tv.usec < 1000000

instance (tv : Timeval) : Decidable tv.Valid := inferInstanceAs (Decidable (_ ∧ _))

/-- A non-empty part of the descriptors asked for. -/
def SelectCall.Ready (call : SelectCall) (set : FdSets) : Prop :=
  (∀ m ∈ [PosixHandleMode.read, .write, .exception], ∀ fd ∈ set m, fd ∈ call.sets m) ∧
    ∃ m ∈ [PosixHandleMode.read, .write, .exception], set m ≠ []

/-- What `select` may answer to a call: `EINVAL` for a time it does not take, `EBADF` for a descriptor that is not
open. -/
def SelectCall.Answers (call : SelectCall) : SelectResult → Prop
  | .timeout => call.tv.Valid
  | .ready set => call.tv.Valid ∧ call.Ready set
  | .error => ¬call.tv.Valid ∨ ∃ m ∈ [PosixHandleMode.read, .write, .exception], call.sets m ≠ []

instance (call : SelectCall) (set : FdSets) : Decidable (call.Ready set) := inferInstanceAs (Decidable (_ ∧ _))

instance (call : SelectCall) : (o : SelectResult) → Decidable (call.Answers o)
  | .timeout => inferInstanceAs (Decidable call.tv.Valid)
  | .ready set => inferInstanceAs (Decidable (call.tv.Valid ∧ call.Ready set))
  | .error => inferInstanceAs (Decidable
      (¬call.tv.Valid ∨ ∃ m ∈ [PosixHandleMode.read, .write, .exception], call.sets m ≠ []))

/-- `EventCall` (:100); `h`, `e` and `d` are those of `reg`. -/
structure EventCall where
  t : AbsTime
  reg : Reg
deriving DecidableEq, Repr

/-- Which part of `run` calls a callback: the timeout branch (:273), the descriptor branch (:287)
or the dependency phase (:300). -/
inductive Phase where
  | timeout | io | dep
deriving DecidableEq, Repr

/-- A callback invocation: `reg.e(reg.h, t, reg.data)`, with `reg.h->status` at that moment. -/
structure Invocation where
  reg : Reg
  t : AbsTime
  status : Status
  phase : Phase
deriving DecidableEq, Repr

/-- Where `run` stands. In `main`, `timeout`, `io` and `dep` user code is running: `gea_main` before
`run` is entered, the callback of `reg` (:280), or a callback of `elist`, with `rest` to come. -/
inductive Ctl where
  | main
  | loop
  | select (call : SelectCall)
  | timeout (reg : Reg)
  | io (rest : List EventCall)
  | dep (elist rest : List EventCall)
  | returned
  | aborted

/-- User code is running. -/
def Ctl.user : Ctl → Bool
  | .main | .timeout _ | .io _ | .dep _ _ => true
  | _ => false

/-- A callback is running. -/
def Ctl.callback : Ctl → Bool
  | .timeout _ | .io _ | .dep _ _ => true
  | _ => false

/-- The `EventCall`s that were taken out of `eventList` and not called yet. -/
def Ctl.rest : Ctl → List EventCall
  | .io rest | .dep _ rest => rest
  | _ => []

structure St where
  eventList : List Reg
  status : Handle → Status
  triggered : Handle → Bool
  lastEventTime : AbsTime
  ctl : Ctl
  /-- Clock readings taken so far. -/
  reads : Nat
  /-- Registrations made so far. -/
  regs : List Reg
  log : List Invocation

/-- The number the next registration gets. -/
abbrev St.made (s : St) : Nat := s.regs.length

/-- Before `gea_main`. A fresh handle's `status` is not initialised; `Undefined` stands for it. -/
def St.init (t0 : AbsTime) : St where
  eventList := []
  status := fun _ => .undefined
  triggered := fun _ => false
  lastEventTime := t0
  ctl := .main
  reads := 0
  regs := []
  log := []

/-- `ShadowEventHandler::waitFor` (:314). -/
def St.waitFor (s : St) (h : Handle) (timeout : AbsTime) (e : Event) (data : Data) : St :=
  { s with
    status := Function.update s.status h .blocked
    eventList := Multimap.insert Reg.timeout ⟨s.made, h, timeout, e, data⟩ s.eventList
    regs := s.regs ++ [⟨s.made, h, timeout, e, data⟩] }

/-- `ShadowDepend::complied` (`ShadowDependHandle.cc:6`). -/
def St.complied (s : St) (d : Handle) : St :=
  { s with
    triggered := Function.update s.triggered d true
    status := Function.update s.status d .ready }

/-- Store the event time and call the callback (:278-282, and `callECList` :116). -/
def St.invoke (s : St) (r : Reg) (t : AbsTime) (phase : Phase) : St :=
  { s with lastEventTime := t, log := s.log ++ [⟨r, t, s.status r.h, phase⟩] }

/-- A predicate's work on an entry it accepts (:146-156, :179-189): mark the handle `Ready` and
make the `EventCall`, at the current time. -/
def St.collect (clock : Nat → AbsTime) (s : St) (r : Reg) : St × EventCall :=
  ({ s with status := Function.update s.status r.h .ready, reads := s.reads + 1 }, ⟨clock s.reads, r⟩)

/-- `remove_if` (:198): visit the entries in order, take out those the predicate accepts. The
result is what stays, the `EventCall`s, and the state after the predicate's side effects. -/
def removeIf (clock : Nat → AbsTime) (pred : Reg → Bool) : List Reg → St → List Reg × List EventCall × St
  | [], s => ([], [], s)
  | r :: rs, s =>
    if pred r then
      let (s', ec) := s.collect clock r
      let (kept, elist, s'') := removeIf clock pred rs s'
      (kept, ec :: elist, s'')
    else
      let (kept, elist, s') := removeIf clock pred rs s
      (r :: kept, elist, s')

/-- The condition of `activeFdHandlePred` (:134-144). -/
def activeFd (cfg : Cfg) (set : FdSets) (r : Reg) : Bool :=
  (cfg.isUnixFdHandle r.h || cfg.isUdpHandle r.h) &&
    (let sh := cfg.shadowHandle (cfg.unixFdHandle r.h)
     FD_ISSET sh.unixFd (set sh.unixMode))

/-- The condition of `activeDepPred` (:175-178). -/
def activeDep (cfg : Cfg) (triggered : Handle → Bool) (r : Reg) : Bool :=
  cfg.isDepend r.h && triggered r.h

/-- `for_each(elist, resetDepTrigger())` (:305). -/
def resetDepTrigger (elist : List EventCall) (triggered : Handle → Bool) : Handle → Bool :=
  elist.foldl (fun tr ec => Function.update tr ec.reg.h false) triggered

/-- The test of the dependency loop (:300): collect the entries whose handle is triggered; if there
are any call the first callback, else the iteration of `run` is over. -/
def depPhase (cfg : Cfg) (clock : Nat → AbsTime) (s : St) : St :=
  let (kept, elist, s') := removeIf clock (activeDep cfg s.triggered) s.eventList s
  match elist with
  | [] => { s' with eventList := kept, ctl := .loop }
  | ec :: rest => { s' with eventList := kept, ctl := .dep elist rest }.invoke ec.reg ec.t .dep

/-- The descriptor branch (:289-291). -/
def ioPhase (cfg : Cfg) (clock : Nat → AbsTime) (set : FdSets) (s : St) : St :=
  let (kept, elist, s') := removeIf clock (activeFd cfg set) s.eventList s
  match elist with
  | [] => depPhase cfg clock { s' with eventList := kept }
  | ec :: rest => { s' with eventList := kept, ctl := .io rest }.invoke ec.reg ec.t .io

/-- The timeout branch up to the callback (:276-282); `r` is `eventList.begin()`. -/
def timeoutPhase (s : St) (r : Reg) : St :=
  { s with status := Function.update s.status r.h .timeout, ctl := .timeout r }.invoke r r.timeout .timeout

/-- The time for `::select` (:242-248), from the front entry's key and the current time. -/
def sleepTimeval (key now : AbsTime) : Timeval := double2Timeval (if key - now < 0 then 0 else key - now)

/-- The arguments of `::select` (:242-263). -/
def selectCall (cfg : Cfg) (key now : AbsTime) (l : List Reg) : Option SelectCall :=
  (fillFdSets cfg l).map fun (sets, maxFd) => ⟨sets, maxFd, sleepTimeval key now⟩

/-- The head of the loop (:238-267). -/
def loopHead (cfg : Cfg) (clock : Nat → AbsTime) (s : St) : St :=
  match s.eventList with
  | [] => { s with ctl := .returned }
  | r :: _ => match selectCall cfg r.timeout (clock s.reads) s.eventList with
    | none => { s with reads := s.reads + 1, ctl := .aborted }
    | some call => { s with reads := s.reads + 1, ctl := .select call }

/-- `::select` returns `o`. -/
def wake (cfg : Cfg) (clock : Nat → AbsTime) (s : St) : SelectResult → Option St
  | .timeout => match s.eventList with
    | [] => none
    | r :: _ => some (timeoutPhase s r)
  | .ready set => some (ioPhase cfg clock set s)
  | .error => some { s with ctl := .aborted }

/-- User code returns: `gea_main` to `run` (:235), a callback to the code behind its call. -/
def ret (cfg : Cfg) (clock : Nat → AbsTime) (s : St) : Option St :=
  match s.ctl with
  | .main => some { s with ctl := .loop }
  | .timeout _ => some (depPhase cfg clock { s with eventList := s.eventList.tail })  -- :284
  | .io [] => some (depPhase cfg clock s)
  | .io (ec :: rest) => some ({ s with ctl := .io rest }.invoke ec.reg ec.t .io)
  | .dep elist [] => some (depPhase cfg clock { s with triggered := resetDepTrigger elist s.triggered })
  | .dep elist (ec :: rest) => some ({ s with ctl := .dep elist rest }.invoke ec.reg ec.t .dep)
  | _ => none

/-- What the environment decides: that `run` goes on from the head of its loop, what `select`
answers, and what the running user code does. -/
inductive Input where
  | enter
  | wake (o : SelectResult)
  | waitFor (h : Handle) (timeout : AbsTime) (e : Event) (data : Data)
  | complied (d : Handle)
  | ret

def step (cfg : Cfg) (clock : Nat → AbsTime) (s : St) : Input → Option St
  | .enter => match s.ctl with
    | .loop => some (loopHead cfg clock s)
    | _ => none
  | .wake o => match s.ctl with
    | .select _ => wake cfg clock s o
    | _ => none
  | .waitFor h t e d => if s.ctl.user then some (s.waitFor h t e d) else none
  | .complied d => if s.ctl.user && cfg.isDepend d then some (s.complied d) else none
  | .ret => ret cfg clock s

/-! ## `remove_if` in closed form -/

section
variable (clock : Nat → AbsTime) (pred : Reg → Bool)

theorem removeIf_kept : ∀ (l : List Reg) (s : St), (removeIf clock pred l s).1 = l.filter (!pred ·)
  | [], _ => rfl
  | r :: rs, s => by
    simp only [removeIf]
    split
    · rename_i hp; simp [hp, removeIf_kept rs]
    · rename_i hp; simp [hp, removeIf_kept rs]

theorem removeIf_reg : ∀ (l : List Reg) (s : St),
    (removeIf clock pred l s).2.1.map EventCall.reg = l.filter pred
  | [], _ => rfl
  | r :: rs, s => by
    simp only [removeIf]
    split
    · rename_i hp; simp [hp, St.collect, removeIf_reg rs]
    · rename_i hp; simp [hp, removeIf_reg rs]

/-- The times of the collected calls are the successive clock readings. -/
theorem removeIf_times : ∀ (l : List Reg) (s : St),
    (removeIf clock pred l s).2.1.map EventCall.t =
      (List.range (removeIf clock pred l s).2.1.length).map fun i => clock (s.reads + i)
  | [], _ => rfl
  | r :: rs, s => by
    simp only [removeIf]
    split
    · simp only [St.collect, List.map_cons, List.length_cons, List.range_succ_eq_map, List.map_map,
        removeIf_times rs]
      simp [Function.comp_def, Nat.add_assoc, Nat.add_comm 1]
    · exact removeIf_times rs s

/-- What `remove_if` leaves behind in the state: only `status` and the number of clock readings. -/
theorem removeIf_state : ∀ (l : List Reg) (s : St),
    (removeIf clock pred l s).2.2 =
      { s with
        status := fun h => if ∃ r ∈ l.filter pred, r.h = h then .ready else s.status h
        reads := s.reads + (l.filter pred).length }
  | [], s => by simp [removeIf]
  | r :: rs, s => by
    simp only [removeIf]
    split
    · rename_i hp
      simp only [St.collect, removeIf_state rs, List.filter_cons, hp, if_true, List.length_cons,
        St.mk.injEq, true_and, and_true]
      refine ⟨?_, by omega⟩
      funext h
      by_cases hr : r.h = h
      · subst hr; simp
      · simp only [List.exists_mem_cons_iff, hr, false_or, Function.update_of_ne (Ne.symm hr)]
    · rename_i hp
      simp only [removeIf_state rs, List.filter_cons, hp, Bool.false_eq_true, if_false]

end

end Posix
