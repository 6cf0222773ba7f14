import Awds.Lib.Run
import Awds.Ns2.Machine

/-!
# What a step of the ns-2 backend can do

`Step` lists the branches of the entry points, of `waitFor` and `complied`, and the return of user
code; `Unwind` lists what the backend does by itself behind a return, one frame or one entry of
`todo` at a time. Every invariant is derived from the two (`Reaches.invariant`).
-/

namespace Ns2

open Gea

/-- The scheduler took `x` out of its queue. -/
def St.take (s : St) (x : Scheduled) : St := { s with queue := s.queue.erase x, clock := x.time }

/-- The state of `waitFor` behind its first line (:60), for the registration `r`. -/
def St.register (s : St) (r : Reg) : St :=
  { s with status := Function.update s.status r.h .blocked, regs := s.regs ++ [r] }

/-- The callback of a timer whose handle waits with `r`. -/
def St.expired (s : St) (h : Handle) (r : Reg) : St :=
  { s with
    timer := Function.update s.timer h .handling
    status := Function.update s.status h .timeout
    lastEventTime := s.clock }.call r s.clock .expire (.timer h :: s.stack)

def St.timedOut (cfg : Cfg) (s : St) (h : Handle) (r : Reg) : St :=
  { s with
    timer := Function.update s.timer h .handling
    slot := Function.update s.slot h none
    status := Function.update s.status h .timeout
    currentNode := cfg.node h
    lastEventTime := r.timeout }.call r r.timeout .do_timeout (.drain :: .timer h :: s.stack)

/-- The callback of a `UdpHandle` that waits with `r`, for a packet. -/
def St.received (cfg : Cfg) (s : St) (h : Handle) (r : Reg) : St :=
  { s.remove h with
    timer := Function.update s.timer h .idle
    status := Function.update s.status h .ready
    slot := Function.update s.slot h none
    currentNode := cfg.node h
    lastEventTime := s.clock }.call r s.clock .process_data (.drain :: .recv h :: s.stack)

/-- `complied` on a `Blocked` handle. -/
def St.trigger (s : St) (d : Handle) (r : Reg) : St :=
  { s with
    status := Function.update s.status d .ready
    pendingList := s.pendingList ++ [⟨r, s.lastEventTime⟩] }

/-- `doPendingEvents` calls the callback of the entry `p`. -/
def St.run (s : St) (t : AbsTime) (p : EventDescr) (stack : List Frame) : St :=
  { s.remove p.reg.h with
    timer := Function.update s.timer p.reg.h .idle
    lastEventTime := t
    cancels := s.cancels ++ [(p.reg, s.slot p.reg.h)] }.call p.reg t .doPendingEvents stack

/-- The frame runs `doPendingEvents(t)`, behind the last entry of `todo`. -/
def Frame.drains (s : St) (t : AbsTime) (f : Frame) : Prop :=
  f = .drain ∧ t = s.lastEventTime ∨ f = .pend t []

inductive Step (cfg : Cfg) : St → Input → St → Prop where
  | start {s} (n : Node) (hs : s.stack = []) : Step cfg s (.start n) (geaStart s n)
  | advance {s} (t : AbsTime) (hs : s.stack = []) (ht : s.clock ≤ t) : Step cfg s (.advance t) { s with clock := t }
  | backwards {s x} (hs : s.stack = []) (hx : x ∈ s.queue) (ht : x.time < s.clock) :
      Step cfg s (.dispatch x) (s.fail .backwards)
  | handle {s x r} (hs : s.stack = []) (hx : x ∈ s.queue) (ht : s.clock ≤ x.time) (he : x.ev = .gea r) :
      Step cfg s (.dispatch x) (handle cfg (s.take x) r)
  | sanity {s x h} (hs : s.stack = []) (hx : x ∈ s.queue) (he : x.ev = .timer h) (ht : s.timer h ≠ .pending)
      (hc : s.clock ≤ x.time) :
      Step cfg s (.dispatch x) ((s.take x).fail (.sanity h))
  | unset {s x h} (hs : s.stack = []) (hx : x ∈ s.queue) (he : x.ev = .timer h) (ht : s.timer h = .pending)
      (hk : cfg.kind h = .depend) (hsl : s.slot h = none) (hc : s.clock ≤ x.time) :
      Step cfg s (.dispatch x) { s.take x with timer := Function.update s.timer h .handling }
  | expire {s x h r} (hs : s.stack = []) (hx : x ∈ s.queue) (hc : s.clock ≤ x.time) (he : x.ev = .timer h)
      (ht : s.timer h = .pending) (hk : cfg.kind h = .depend) (hsl : s.slot h = some r) :
      Step cfg s (.dispatch x) ((s.take x).expired h r)
  | noEvent {s x h} (hs : s.stack = []) (hx : x ∈ s.queue) (he : x.ev = .timer h) (ht : s.timer h = .pending)
      (hk : cfg.kind h ≠ .depend) (hsl : s.slot h = none) (hc : s.clock ≤ x.time) :
      Step cfg s (.dispatch x) ({ s.take x with timer := Function.update s.timer h .handling }.fail (.noEvent h))
  | doTimeout {s x h r} (hs : s.stack = []) (hx : x ∈ s.queue) (he : x.ev = .timer h) (ht : s.timer h = .pending)
      (hk : cfg.kind h ≠ .depend) (hsl : s.slot h = some r) (hc : s.clock ≤ x.time) :
      Step cfg s (.dispatch x) ((s.take x).timedOut cfg h r)
  | ignored {s h} (hk : cfg.kind h = .udpRead) : Step cfg s (.arrive h) s
  | insane {s h} (hk : cfg.kind h = .udpRead) (ht : s.status h = .undefined) :
      Step cfg s (.arrive h) (s.fail (.insane h))
  | cancel {s h} (hk : cfg.kind h = .udpRead) (ht : s.status h = .blocked) (hp : s.timer h ≠ .pending) :
      Step cfg s (.arrive h) (s.fail (.cancel h))
  | noHandler {s h} (hk : cfg.kind h = .udpRead) (ht : s.status h = .blocked) (hp : s.timer h = .pending)
      (hsl : s.slot h = none) :
      Step cfg s (.arrive h) ({ s.cancel h with status := Function.update s.status h .ready }.fail (.noEvent h))
  | receive {s h r} (hu : s.stack = [] ∨ s.user = true) (hk : cfg.kind h = .udpRead) (ht : s.status h = .blocked)
      (hp : s.timer h = .pending) (hsl : s.slot h = some r) : Step cfg s (.arrive h) (s.received cfg h r)
  | blocker {s h} (t : AbsTime) (e : Event) (d : Data) (hu : s.user = true) (hk : cfg.kind h = .blocker) :
      Step cfg s (.waitFor h t e d)
        ((s.register ⟨s.regs.length, h, t, e, d⟩).insert ⟨t, .gea ⟨s.regs.length, h, t, e, d⟩⟩)
  | activate {s h} (t : AbsTime) (e : Event) (d : Data) (hu : s.user = true) (hk : cfg.kind h = .depend) :
      Step cfg s (.waitFor h t e d)
        ((s.register ⟨s.regs.length, h, t, e, d⟩).activate ⟨s.regs.length, h, t, e, d⟩)
  | setupEvent {s h} (t : AbsTime) (e : Event) (d : Data) (hu : s.user = true) (hk : cfg.kind h = .udpRead) :
      Step cfg s (.waitFor h t e d)
        ((s.register ⟨s.regs.length, h, t, e, d⟩).setupEvent ⟨s.regs.length, h, t, e, d⟩)
  | write {s h} (t : AbsTime) (e : Event) (d : Data) (hu : s.user = true) (hk : cfg.kind h = .udpWrite) :
      Step cfg s (.waitFor h t e d)
        ({ s.register ⟨s.regs.length, h, t, e, d⟩ with status := Function.update s.status h .ready }.call
          ⟨s.regs.length, h, t, e, d⟩ s.clock .waitFor (.pend t [] :: .write h :: s.stack))
  | notBlocked {s d} (hk : cfg.kind d = .depend) : Step cfg s (.complied d) s
  | uninitialised {s d} (hk : cfg.kind d = .depend) (ht : s.status d = .blocked) (hsl : s.slot d = none) :
      Step cfg s (.complied d) (s.fail (.uninitialised d))
  | complied {s d r} (hu : s.user = true) (hk : cfg.kind d = .depend) (ht : s.status d = .blocked)
      (hsl : s.slot d = some r) : Step cfg s (.complied d) (s.trigger d r)
  | ret {s f fs} (hs : s.stack = f :: fs) (hf : f.user = true) : Step cfg s .ret { s with stack := fs }

/-- One piece of the backend's own work behind a return. -/
inductive Unwind : St → St → Prop where
  | pop {s f fs} (hs : s.stack = f :: fs) (hf : (∃ h, f = .write h) ∨ (∃ h, f = .recv h)) :
      Unwind s { s with stack := fs }
  | timer {s h fs} (hs : s.stack = .timer h :: fs) : Unwind s { s.settle h with stack := fs }
  | done {s f fs t} (hs : s.stack = f :: fs) (hf : f.drains s t) (hp : s.pendingList = []) :
      Unwind s { s with stack := fs }
  | take {s f fs t p todo} (hs : s.stack = f :: fs) (hf : f.drains s t) (hp : s.pendingList = p :: todo) :
      Unwind s { s with pendingList := [], stack := .pend t (p :: todo) :: fs }
  | run {s t p todo fs} (hs : s.stack = .pend t (p :: todo) :: fs) (ht : s.timer p.reg.h = .pending) :
      Unwind s (s.run t p (.pend t todo :: fs))
  | stuck {s t p todo fs} (hs : s.stack = .pend t (p :: todo) :: fs) (ht : s.timer p.reg.h ≠ .pending) :
      Unwind s ({ s with stack := .pend t todo :: fs }.fail (.notPending p.reg.h))

variable {cfg : Cfg} {s s' : St}

/-- What the backend does by itself, up to the next piece of user code. -/
abbrev Unwinds : St → St → Prop := Relation.ReflTransGen Unwind

theorem runPending_unwind {t : AbsTime} {p : EventDescr} {todo : List EventDescr} {fs : List Frame} :
    Unwind { s with stack := .pend t (p :: todo) :: fs } (runPending s t p (.pend t todo :: fs)) := by
  by_cases ht : s.timer p.reg.h = .pending
  · simp only [runPending, St.cancel, if_pos ht]
    exact .run (s := { s with stack := .pend t (p :: todo) :: fs }) rfl ht
  · simp only [runPending, if_neg ht]
    exact .stuck (s := { s with stack := .pend t (p :: todo) :: fs }) rfl ht

/-- A frame behind which `doPendingEvents` loops: it is left, or a callback is called. -/
theorem doPendingEvents_unwind {t : AbsTime} (f : Frame) (fs : List Frame) (s : St)
    (hf : f.drains { s with stack := f :: fs } t) :
    (doPendingEvents s t fs = none ∧ Unwind { s with stack := f :: fs } { s with stack := fs }) ∨
      ∃ s', doPendingEvents s t fs = some s' ∧ Unwinds { s with stack := f :: fs } s' := by
  rcases hp : s.pendingList with _ | ⟨p, todo⟩
  · have hdone := Unwind.done (s := { s with stack := f :: fs }) rfl hf hp
    exact .inl ⟨by simp [doPendingEvents, hp], by simpa only [hp] using hdone⟩
  · have htake := Unwind.take (s := { s with stack := f :: fs }) rfl hf hp
    refine .inr ⟨_, by simp only [doPendingEvents, hp]; rfl, .head ?_ (.single runPending_unwind)⟩
    simpa only [hp] using htake

theorem resume_unwind : ∀ (fs : List Frame) (s : St), Unwinds { s with stack := fs } (resume fs s)
  | [], s | .main :: fs, s | .cb r :: fs, s => .refl
  | .pend t (p :: todo) :: fs, s => .single runPending_unwind
  | .pend t [] :: fs, s => by
    rcases doPendingEvents_unwind (.pend t []) fs s (.inr rfl) with ⟨he, hu⟩ | ⟨s', he, hu⟩
    · simp only [resume, he]; exact .head hu (resume_unwind fs s)
    · simp only [resume, he]; exact hu
  | .drain :: fs, s => by
    rcases doPendingEvents_unwind .drain fs s (.inl ⟨rfl, rfl⟩) with ⟨he, hu⟩ | ⟨s', he, hu⟩
    · simp only [resume, he]; exact .head hu (resume_unwind fs s)
    · simp only [resume, he]; exact hu
  | .timer h :: fs, s =>
    have hsettle : { St.settle { s with stack := .timer h :: fs } h with stack := fs } = { s.settle h with stack := fs } := by
      simp only [St.settle]; split <;> rfl
    .head (hsettle ▸ .timer (s := { s with stack := .timer h :: fs }) rfl) (resume_unwind fs (s.settle h))
  | .write h :: fs, s =>
    .head (.pop (s := { s with stack := .write h :: fs }) rfl (.inl ⟨h, rfl⟩)) (resume_unwind fs s)
  | .recv h :: fs, s =>
    .head (.pop (s := { s with stack := .recv h :: fs }) rfl (.inr ⟨h, rfl⟩)) (resume_unwind fs s)

theorem dispatch_cases {x : Scheduled} (hs : s.stack = []) (hx : x ∈ s.queue) :
    Step cfg s (.dispatch x) (dispatch cfg s x) := by
  unfold dispatch
  split
  · rename_i ht; exact .backwards hs hx ht
  · rename_i ht
    dsimp only
    split
    · rename_i r he; exact .handle hs hx (not_lt.1 ht) he
    · rename_i h he
      unfold timerHandle
      split
      · rename_i hp
        dsimp only
        split
        · rename_i hk
          unfold expire
          split
          · rename_i hsl; exact .unset hs hx he hp hk hsl (not_lt.1 ht)
          · rename_i r hsl; exact .expire hs hx (not_lt.1 ht) he hp hk hsl
        · rename_i hk
          unfold doTimeout
          split
          · rename_i hsl; exact .noEvent hs hx he hp hk hsl (not_lt.1 ht)
          · rename_i r hsl; exact .doTimeout hs hx he hp hk hsl (not_lt.1 ht)
      · rename_i hp; exact .sanity hs hx he hp (not_lt.1 ht)

theorem processData_cases {h : Handle} (hu : s.stack = [] ∨ s.user = true) (hk : cfg.kind h = .udpRead) :
    Step cfg s (.arrive h) (processData cfg s h) := by
  unfold processData
  split
  · rename_i ht
    split
    · rename_i hp
      dsimp only
      split
      · rename_i hsl; exact .noHandler hk ht hp hsl
      · rename_i r hsl
        simp only [St.cancel, if_pos hp]
        exact .receive hu hk ht hp hsl
    · rename_i hp
      simp only [St.cancel, if_neg hp]
      exact .cancel hk ht hp
  · exact .ignored hk
  · exact .ignored hk
  · exact .ignored hk
  · rename_i ht; exact .insane hk ht

theorem waitFor_cases {h : Handle} {t : AbsTime} {e : Event} {d : Data} (hu : s.user = true) :
    Step cfg s (.waitFor h t e d) (s.waitFor cfg h t e d) := by
  unfold St.waitFor
  dsimp only
  split
  · rename_i hk; exact .blocker t e d hu hk
  · rename_i hk; exact .activate t e d hu hk
  · rename_i hk; exact .setupEvent t e d hu hk
  · rename_i hk; rw [Function.update_idem]; exact .write t e d hu hk

theorem step_cases {i : Input} (h : step cfg s i = some s') :
    s.failed = none ∧ ∃ v, Step cfg s i v ∧ (v = s' ∨ i = .ret ∧ Unwinds v s') := by
  unfold step at h
  split at h
  · cases h
  rename_i hf
  refine ⟨by simpa using hf, ?_⟩
  cases i with
  | start n =>
    simp only [Option.ite_none_right_eq_some, Option.some.injEq] at h
    obtain ⟨hs, rfl⟩ := h; exact ⟨_, .start n hs, .inl rfl⟩
  | advance t =>
    simp only [Option.ite_none_right_eq_some, Option.some.injEq] at h
    obtain ⟨⟨hs, ht⟩, rfl⟩ := h; exact ⟨_, .advance t hs ht, .inl rfl⟩
  | dispatch x =>
    simp only [Option.ite_none_right_eq_some, Option.some.injEq] at h
    obtain ⟨⟨hs, hx⟩, rfl⟩ := h; exact ⟨_, dispatch_cases hs hx, .inl rfl⟩
  | arrive k =>
    simp only [Option.ite_none_right_eq_some, Option.some.injEq] at h
    obtain ⟨⟨hk, hu⟩, rfl⟩ := h; exact ⟨_, processData_cases hu hk, .inl rfl⟩
  | waitFor k t e d =>
    simp only [Option.ite_none_right_eq_some, Option.some.injEq] at h
    obtain ⟨hu, rfl⟩ := h; exact ⟨_, waitFor_cases hu, .inl rfl⟩
  | complied d =>
    simp only [Option.ite_none_right_eq_some, Option.some.injEq] at h
    obtain ⟨⟨hu, hk⟩, rfl⟩ := h
    unfold St.complied
    split
    · exact ⟨_, .notBlocked hk, .inl rfl⟩
    · rename_i ht
      split
      · rename_i hsl; exact ⟨_, .uninitialised hk (not_not.1 ht) hsl, .inl rfl⟩
      · rename_i r hsl; exact ⟨_, .complied hu hk (not_not.1 ht) hsl, .inl rfl⟩
  | ret =>
    dsimp only at h
    split at h
    · rename_i fs hs; cases h; exact ⟨_, .ret hs rfl, .inr ⟨rfl, resume_unwind fs s⟩⟩
    · rename_i r fs hs; cases h; exact ⟨_, .ret hs rfl, .inr ⟨rfl, resume_unwind fs s⟩⟩
    · cases h

/-- The states a simulation reaches when every input satisfies `ok`, whatever `Handle::status` held at first. -/
def Reaches (cfg : Cfg) (ok : St → Input → Prop) (s : St) : Prop :=
  ∃ status, Lts.Reach (step cfg) ok (St.init status) s

theorem Reaches.tail {ok : St → Input → Prop} {i : Input} (h : Reaches cfg ok s) (ho : ok s i)
    (hs : step cfg s i = some s') : Reaches cfg ok s' := by
  obtain ⟨status, hr⟩ := h
  exact ⟨status, hr.tail ho hs⟩

/-- The invariant rule for the backend: the branches of its entry points, and its own work behind a
return of user code. -/
theorem reach_invariant {ok : St → Input → Prop} {I : St → Prop} {s₀ : St} (h : Lts.Reach (step cfg) ok s₀ s)
    (h0 : I s₀) (hstep : ∀ t i u, I t → ok t i → Step cfg t i u → I u) (hun : ∀ t u, I t → Unwind t u → I u) :
    I s := by
  refine Lts.Reach.invariant h h0 fun t i u hI ho hs => ?_
  obtain ⟨-, v, hv, rfl | ⟨rfl, hu⟩⟩ := step_cases hs
  · exact hstep t i v hI ho hv
  · have hv := hstep t _ v hI ho hv
    clear hs
    induction hu with
    | refl => exact hv
    | tail _ hu ih => exact hun _ _ ih hu

theorem Reaches.invariant {ok : St → Input → Prop} {I : St → Prop} (h : Reaches cfg ok s) (h0 : ∀ status, I (St.init status))
    (hstep : ∀ t i u, I t → ok t i → Step cfg t i u → I u) (hun : ∀ t u, I t → Unwind t u → I u) : I s := by
  obtain ⟨status, hr⟩ := h
  exact reach_invariant hr (h0 status) hstep hun

/-! ## Concrete runs -/

/-- Every handle's `status` is `Undefined` at first. -/
abbrev St.fresh : St := St.init fun _ => .undefined

/-- A state computed by running `is`. -/
theorem reaches_get {ok : St → Input → Prop} [∀ s i, Decidable (ok s i)] (is : List Input)
    (h : (Lts.execOk (step cfg) ok St.fresh is).isSome = true) :
    Reaches cfg ok ((Lts.execOk (step cfg) ok St.fresh is).get h) :=
  ⟨_, Lts.reach_get is h⟩

/-- On node 1: a `Blocker` (0), two `DependHandle`s (1, 2), a `UdpHandle` in read mode (3) and one
in write mode (4); on node 2: a `Blocker` (5). -/
def sampleCfg : Cfg where
  kind h := match h with
    | 0 | 5 => .blocker
    | 1 | 2 => .depend
    | 3 => .udpRead
    | _ => .udpWrite
  node h := if h = 5 then 2 else 1

end Ns2
