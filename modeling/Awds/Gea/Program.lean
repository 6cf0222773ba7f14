import Awds.Ns2.Step
import Awds.Posix.Step

/-!
# One program on both backends

A `Program` is what `gea_main` and the callbacks of a GEA program do, up to the next call into GEA:
a deterministic function of the program's memory and of what it can read (`View`). It uses `Blocker`s
and `DependHandle`s (`dep h`) only.

`Posix.run P dep t0 status n` and `Ns2.run P dep node t0 status n` are the states after `n` pieces of
such code, where the handles' `status` reads `status` at first. The clock is idealised: callbacks take no
time, all times are whole ticks, `select` does not fail and wakes exactly at the deadline it was called
with, and the ns-2 scheduler takes the events of its queue from the front (in time order, ties in
insertion order). Where the program is over a run stays where it is. `Punctual` says how a program
may use `waitFor`: deadlines that are not over, one outstanding registration per handle.
-/

namespace Gea

/-- What user code calls. -/
inductive Act where
  | waitFor (h : Handle) (timeout : AbsTime) (e : Event) (data : Data)
  | complied (d : Handle)
deriving DecidableEq, Repr

/-- What user code can read: `h->status` (`none` where `waitFor` was not called, which is the first to store one),
`AbsTime::now()`, `GEA.lastEventTime`. -/
structure View where
  status : Handle → Option Status
  now : AbsTime
  lastEventTime : AbsTime

/-- The `status` of the handles that `waitFor` was called on. -/
def stored (regs : List Reg) (status : Handle → Status) (h : Handle) : Option Status :=
  if ∃ r ∈ regs, r.h = h then some (status h) else none

/-- A callback that was called, with its time argument. -/
abbrev Call := Reg × AbsTime

/-- `main` is the memory at the call of `gea_main`; `call m e h t data` the memory when the callback
`e(h, t, data)` begins; `next` runs the user code up to its next call (`none`: it returns). -/
structure Program (σ : Type*) where
  main : σ
  call : σ → Event → Handle → AbsTime → Data → σ
  next : σ → View → σ × Option Act

variable {σ : Type*}

/-- The memory behind a step that made `new` out of the list `old` of the calls so far. -/
def Program.enter (P : Program σ) (m : σ) (old new : List Call) : σ :=
  (new.drop old.length).foldl (fun m c => P.call m c.1.e c.1.h c.2 c.1.data) m

/-- The program reads the status of `DependHandle`s only. -/
def Program.ReadsDepends (P : Program σ) (dep : Handle → Bool) : Prop :=
  ∀ m v status, (∀ h, dep h = true → v.status h = status h) → P.next m v = P.next m { v with status := status }

/-- `waitFor` gets a deadline that is not over, on a handle all of whose registrations were called. -/
def Punctual (now : AbsTime) (regs : List Reg) (calls : List Call) : Option Act → Prop
  | some (.waitFor h t _ _) => now ≤ t ∧ ∀ r ∈ regs, r.h = h → r ∈ calls.map Prod.fst
  | _ => True

instance (now : AbsTime) (regs : List Reg) (calls : List Call) : (a : Option Act) → Decidable (Punctual now regs calls a)
  | some (.waitFor h t _ _) =>
    inferInstanceAs (Decidable (now ≤ t ∧ ∀ r ∈ regs, r.h = h → r ∈ calls.map Prod.fst))
  | some (.complied _) | none => isTrue trivial

/-- A program that does what it is told: `gea_main` the list `main`, the callback `e` the list `cb e`. -/
def Program.script (main : List Act) (cb : Event → List Act) : Program (List Act) where
  main := main
  call _ e _ _ _ := cb e
  next m _ := (m.tail, m.head?)

theorem script_readsDepends (main : List Act) (cb : Event → List Act) (dep : Handle → Bool) :
    (Program.script main cb).ReadsDepends dep :=
  fun _ _ _ _ => rfl

/-! ## Runs that end -/

section
variable {α : Type*} {next : α → Option α}

/-- The state after `n` steps; a run that is over stays. -/
def iter (next : α → Option α) (a : α) : ℕ → α
  | 0 => a
  | n + 1 => (next (iter next a n)).getD (iter next a n)

theorem iter_over {a : α} {k : ℕ} (h : (next (iter next a k)).isNone = true) : ∀ n, iter next a (k + n) = iter next a k
  | 0 => rfl
  | n + 1 => by
    rw [← Nat.add_assoc, iter, iter_over h n, Option.isNone_iff_eq_none.1 h, Option.getD_none]

/-- What holds up to the end of a run holds for ever. -/
theorem forall_iter {p : α → Prop} {a : α} {k : ℕ} (h : (next (iter next a k)).isNone = true)
    (hp : ∀ n < k + 1, p (iter next a n)) (n : ℕ) : p (iter next a n) := by
  rcases Nat.lt_or_ge n (k + 1) with hn | hn
  · exact hp n hn
  · obtain ⟨m, rfl⟩ := Nat.exists_eq_add_of_le (Nat.le_of_succ_le hn)
    rw [iter_over h]
    exact hp k k.lt_succ_self

end

end Gea

namespace Posix

open Gea

/-- The callbacks called, in order, with their time arguments. -/
def St.calls (s : St) : List Call := s.log.map fun i => (i.reg, i.t)

def input : Option Act → Input
  | some (.waitFor h t e data) => .waitFor h t e data
  | some (.complied d) => .complied d
  | none => .ret

/-- `DependHandle`s and `Blocker`s. -/
def handles (dep : Handle → Bool) : Cfg where
  shadowHandle h := ⟨if dep h then .depend else .blocker, 0, .read⟩
  subUdpHandle h := h

/-- The program's memory, the time, and the state of the loop. -/
structure Ideal (σ : Type*) where
  mem : σ
  now : AbsTime
  st : St

variable {σ : Type*}

/-- What the running user code does next. -/
def Ideal.act (P : Program σ) (x : Ideal σ) : σ × Option Act :=
  P.next x.mem ⟨stored x.st.regs x.st.status, x.now, x.st.lastEventTime⟩

/-- A step of the loop that takes no time. -/
def Ideal.take (P : Program σ) (dep : Handle → Bool) (x : Ideal σ) (m : σ) (i : Input) : Option (Ideal σ) :=
  (step (handles dep) (fun _ => x.now) x.st i).map fun s => ⟨P.enter m x.st.calls s.calls, x.now, s⟩

/-- From the head of the loop `select` is called and wakes at the deadline of the front entry. -/
def Ideal.next (P : Program σ) (dep : Handle → Bool) (x : Ideal σ) : Option (Ideal σ) :=
  match x.st.ctl with
  | .loop => (x.take P dep x.mem .enter).bind fun x => match x.st.eventList with
    | [] => some x
    | r :: _ => Ideal.take P dep { x with now := max x.now r.timeout } x.mem (.wake .timeout)
  | .main | .timeout _ | .io _ | .dep _ _ => x.take P dep (x.act P).1 (input (x.act P).2)
  | .select _ | .returned | .aborted => none

/-- The run of `P` on the POSIX loop, from the call of `gea_main` at `t0`. -/
def run (P : Program σ) (dep : Handle → Bool) (t0 : AbsTime) (status : Handle → Status) (n : ℕ) : Ideal σ :=
  iter (Ideal.next P dep) ⟨P.main, t0, { St.init t0 with status := status }⟩ n

/-- The running user code keeps to `Punctual`. -/
def Ideal.Punctual (P : Program σ) (x : Ideal σ) : Prop :=
  x.st.ctl.user = true → Gea.Punctual x.now x.st.regs x.st.calls (x.act P).2

instance (P : Program σ) (x : Ideal σ) : Decidable (x.Punctual P) := inferInstanceAs (Decidable (_ → _))

end Posix

namespace Ns2

open Gea

/-- The callbacks called, in order, with their time arguments. -/
def St.calls (s : St) : List Call := s.log.map fun i => (i.reg, i.t)

def input : Option Act → Input
  | some (.waitFor h t e data) => .waitFor h t e data
  | some (.complied d) => .complied d
  | none => .ret

/-- `DependHandle`s and `Blocker`s of one node. -/
def handles (dep : Handle → Bool) (node : Node) : Cfg where
  kind h := if dep h then .depend else .blocker
  node _ := node

/-- The program's memory, and the state of the simulator. -/
structure Ideal (σ : Type*) where
  mem : σ
  st : St

variable {σ : Type*}

/-- What the running user code does next. -/
def Ideal.act (P : Program σ) (y : Ideal σ) : σ × Option Act :=
  P.next y.mem ⟨stored y.st.regs y.st.status, y.st.clock, y.st.lastEventTime⟩

def Ideal.take (P : Program σ) (cfg : Cfg) (y : Ideal σ) (m : σ) (i : Input) : Option (Ideal σ) :=
  (step cfg y.st i).map fun s => ⟨P.enter m y.st.calls s.calls, s⟩

/-- Between two events the scheduler takes the front of its queue. -/
def Ideal.next (P : Program σ) (cfg : Cfg) (y : Ideal σ) : Option (Ideal σ) :=
  match y.st.stack with
  | [] => match y.st.queue with
    | [] => none
    | x :: _ => y.take P cfg y.mem (.dispatch x)
  | _ :: _ => y.take P cfg (y.act P).1 (input (y.act P).2)

/-- The run of `P` in the simulator, from `gea_start` on `node` at `t0`. -/
def run (P : Program σ) (dep : Handle → Bool) (node : Node) (t0 : AbsTime) (status : Handle → Status) (n : ℕ) :
    Ideal σ :=
  iter (Ideal.next P (handles dep node)) ⟨P.main, geaStart { St.init status with clock := t0 } node⟩ n

/-- The running user code keeps to `Punctual`. -/
def Ideal.Punctual (P : Program σ) (y : Ideal σ) : Prop :=
  y.st.user = true → Gea.Punctual y.st.clock y.st.regs y.st.calls (y.act P).2

instance (P : Program σ) (y : Ideal σ) : Decidable (y.Punctual P) := inferInstanceAs (Decidable (_ → _))

end Ns2
