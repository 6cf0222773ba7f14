import Awds.Ns2.Invariant
import Awds.Posix.Step

/-!
# Run to completion

On the POSIX backend a callback is called only behind the return of the one before it. On the ns-2
backend user code can be suspended in two calls: `waitFor` on a `UdpHandle` in write mode, which
calls the callback at once ("we allow it immediately", `ShadowEventHandler.cc:79`) and drains
`pendingList` behind it, and `UdpHandle::write`, when a packet is delivered on the spot
(`UdpAgent::sendmsg`). `run_to_completion` says what is called then, and that there is no other way.
-/

namespace Posix

variable {cfg : Cfg} {clock : Nat → Gea.AbsTime} {s s' : St} {i : Input}

/-- While user code runs, nothing but its return calls a callback. -/
theorem log_of_user (hu : s.ctl.user = true) (hi : i ≠ .ret) (hs : step cfg clock s i = some s') : s'.log = s.log := by
  cases step_cases hs with
  | returned hc | select hc | overflow hc | timeout hc | ready _ hc | failed hc => simp [hc, Ctl.user] at hu
  | waitFor | complied => rfl
  | retMain | retTimeout | retIo | nextIo | retDep | nextDep => exact absurd rfl hi

end Posix

namespace Ns2

/-- The backend was called by user code, which waits for the return. -/
def Frame.suspends : Frame → Bool
  | .write _ | .recv _ => true
  | _ => false

/-- User code lies directly below a call it made, and nowhere else. -/
def Suspended (f g : Frame) : Prop := g.user = true → f.suspends = true

variable {cfg : Cfg} {s s' : St} {i : Input}

/-- The stack of a state, and where its `write` and `recv` frames come from. -/
structure StackInv (cfg : Cfg) (s : St) : Prop where
  chain : s.stack.IsChain Suspended
  write : ∀ h, .write h ∈ s.stack → cfg.kind h = .udpWrite
  recv : ∀ h, .recv h ∈ s.stack → cfg.kind h = .udpRead

theorem StackInv.congr (h : StackInv cfg s) (hs : s'.stack = s.stack) : StackInv cfg s' :=
  ⟨hs ▸ h.chain, hs ▸ h.write, hs ▸ h.recv⟩

theorem StackInv.pop {f : Frame} {fs : List Frame} (h : StackInv cfg s) (hs : s.stack = f :: fs)
    (hs' : s'.stack = fs) : StackInv cfg s' := by
  have hmem : ∀ x ∈ s'.stack, x ∈ s.stack := fun x hx => by rw [hs, ← hs']; exact List.mem_cons_of_mem _ hx
  have hchain := h.chain
  rw [hs] at hchain
  exact ⟨hs' ▸ hchain.tail, fun k hk => h.write k (hmem _ hk), fun k hk => h.recv k (hmem _ hk)⟩

/-- The top frame is replaced by a frame of the backend that suspends nobody either. -/
theorem StackInv.replace {f g : Frame} {fs : List Frame} (h : StackInv cfg s) (hs : s.stack = f :: fs)
    (hf : f.suspends = false) (hg : g.suspends = false) (hs' : s'.stack = g :: fs) : StackInv cfg s' := by
  have hp : StackInv cfg { s with stack := fs } := h.pop hs rfl
  have hchain := h.chain
  rw [hs] at hchain
  refine ⟨?_, fun k hk => ?_, fun k hk => ?_⟩
  · rw [hs']
    cases fs with
    | nil => exact .singleton _
    | cons x xs =>
      have hx : Suspended f x := (List.isChain_cons_cons.1 hchain).1
      exact List.isChain_cons_cons.2 ⟨fun hu => absurd (hx hu) (by simp [hf]), hp.chain⟩
  · rw [hs', List.mem_cons] at hk
    rcases hk with rfl | hk
    · cases hg
    · exact hp.write k hk
  · rw [hs', List.mem_cons] at hk
    rcases hk with rfl | hk
    · cases hg
    · exact hp.recv k hk

/-- A frame on top of one that is no user code, or of a call. -/
theorem StackInv.push {f : Frame} (h : StackInv cfg s) (hf : ∀ g ∈ s.stack.head?, Suspended f g)
    (hw : ∀ k, f = .write k → cfg.kind k = .udpWrite) (hr : ∀ k, f = .recv k → cfg.kind k = .udpRead) :
    StackInv cfg { s with stack := f :: s.stack } := by
  refine ⟨List.isChain_cons.2 ⟨hf, h.chain⟩, fun k hk => ?_, fun k hk => ?_⟩
  · rcases List.mem_cons.1 hk with he | hk
    · exact hw k he.symm
    · exact h.write k hk
  · rcases List.mem_cons.1 hk with he | hk
    · exact hr k he.symm
    · exact h.recv k hk

/-- A callback is called from the top of the scheduler or behind a call of the running user code. -/
theorem StackInv.calls {f g : Frame} {r : Gea.Reg} (h : StackInv cfg s) (hg : ∀ x ∈ s.stack.head?, Suspended g x)
    (hw : ∀ k, g = .write k → cfg.kind k = .udpWrite) (hr : ∀ k, g = .recv k → cfg.kind k = .udpRead)
    (hgu : g.user = false) (hf : f = .drain ∨ ∃ t, f = .pend t []) (hs : s'.stack = .cb r :: f :: g :: s.stack) :
    StackInv cfg s' := by
  have h1 := h.push hg hw hr
  have hfu : f.user = false ∧ f.suspends = false ∧ (∀ k, f ≠ .write k) ∧ ∀ k, f ≠ .recv k := by
    rcases hf with rfl | ⟨t, rfl⟩ <;> simp [Frame.user, Frame.suspends]
  have h2 := h1.push (f := f) (by simp [Suspended, hgu]) (fun k he => absurd he (hfu.2.2.1 k))
    fun k he => absurd he (hfu.2.2.2 k)
  have h3 := h2.push (f := .cb r) (by simp [Suspended, hfu.1]) (by simp) (by simp)
  exact h3.congr hs

theorem stackInv_step (h : StackInv cfg s) (hs : Step cfg s i s') : StackInv cfg s' := by
  have hnil : ∀ {f : Frame}, s.stack = [] → ∀ g ∈ s.stack.head?, Suspended f g := fun hs => by simp [hs]
  cases hs with
  | start n hs => exact (h.push (f := .main) (hnil hs) (by simp) (by simp)).congr rfl
  | advance | backwards | sanity | unset | noEvent | insane | cancel | uninitialised | blocker | setupEvent |
    complied => exact h.congr rfl
  | ignored | notBlocked => exact h
  | noHandler _ _ hp _ => simp only [St.cancel, if_pos hp]; exact h.congr rfl
  | activate => unfold St.activate; dsimp only; split <;> exact h.congr rfl
  | @handle x r hs _ _ _ =>
    have h1 := h.push (f := .pend r.timeout []) (hnil hs) (by simp) (by simp)
    have h2 := h1.push (f := .cb r) (by simp [Suspended, Frame.user]) (by simp) (by simp)
    exact h2.congr rfl
  | @expire x k r hs _ _ _ _ _ _ =>
    have h1 := h.push (f := .timer k) (hnil hs) (by simp) (by simp)
    have h2 := h1.push (f := .cb r) (by simp [Suspended, Frame.user]) (by simp) (by simp)
    exact h2.congr rfl
  | @doTimeout x k r hs _ _ _ _ _ =>
    exact h.calls (g := .timer k) (hnil hs) (by simp) (by simp) rfl (.inl rfl) rfl
  | @receive k r _ hk _ _ _ =>
    exact h.calls (g := .recv k) (fun _ _ _ => rfl) (by simp) (by rintro _ ⟨rfl⟩; exact hk) rfl (.inl rfl) rfl
  | @write k t e d _ hk =>
    exact h.calls (g := .write k) (fun _ _ _ => rfl) (by rintro _ ⟨rfl⟩; exact hk) (by simp) rfl (.inr ⟨t, rfl⟩) rfl
  | ret hs _ => exact h.pop hs rfl

theorem stackInv_unwind (h : StackInv cfg s) (hu : Unwind s s') : StackInv cfg s' := by
  cases hu with
  | pop hs | done hs => exact h.pop hs rfl
  | timer hs => unfold St.settle; split <;> exact h.pop hs rfl
  | take hs hf hp => exact h.replace hs (by rcases hf with ⟨rfl, -⟩ | rfl <;> rfl) rfl rfl
  | @run t p todo fs hs _ =>
    have h1 : StackInv cfg { s with stack := .pend t todo :: fs } := h.replace hs rfl rfl rfl
    have h2 := h1.push (f := .cb p.reg) (by simp [Suspended, Frame.user]) (by simp) (by simp)
    exact h2.congr rfl
  | @stuck t p todo fs hs _ => exact h.replace hs rfl rfl (g := .pend t todo) rfl

theorem stackInv {ok : St → Input → Prop} (h : Reaches cfg ok s) : StackInv cfg s :=
  h.invariant (fun _ => ⟨.nil, by simp [St.init], by simp [St.init]⟩) (fun _ _ _ hI _ hs => stackInv_step hI hs)
    fun _ _ hI hu => stackInv_unwind hI hu

/-- What the running user code may do without being suspended. -/
def Plain (cfg : Cfg) : Input → Prop
  | .waitFor h _ _ _ => cfg.kind h ≠ .udpWrite
  | .complied _ => True
  | _ => False

/-- `waitFor` on a `Blocker`, a `DependHandle` or a `UdpHandle` in read mode, and `complied`, call
nothing. -/
theorem log_of_plain (hi : Plain cfg i) (hs : step cfg s i = some s') : s'.log = s.log ∧ s'.stack = s.stack := by
  obtain ⟨-, v, hv, rfl | ⟨rfl, -⟩⟩ := step_cases hs
  · cases hv with
    | blocker | setupEvent | notBlocked | uninitialised | complied => exact ⟨rfl, rfl⟩
    | activate => unfold St.activate; dsimp only; split <;> exact ⟨rfl, rfl⟩
    | write _ _ _ _ hk => exact absurd hk hi
    | start | advance | backwards | handle | sanity | unset | expire | noEvent | doTimeout | ignored | insane | cancel |
      noHandler | receive | ret => exact hi.elim
  · exact hi.elim

/-- The callback of `r` is called at once, above `below` and the suspended user code. -/
def Calls (s s' : St) (r : Gea.Reg) (path : Path) (below : List Frame) : Prop :=
  s'.log = s.log ++ [⟨r, s.clock, .ready, path⟩] ∧ s'.stack = .cb r :: below ++ s.stack

/-- `waitFor` on a `UdpHandle` in write mode. -/
theorem calls_of_write {h : Gea.Handle} (t : Gea.AbsTime) (e : Gea.Event) (d : Gea.Data) (hf : s.failed = none)
    (hu : s.user = true) (hk : cfg.kind h = .udpWrite) :
    ∃ s', step cfg s (.waitFor h t e d) = some s' ∧
      Calls s s' ⟨s.regs.length, h, t, e, d⟩ .waitFor [.pend t [], .write h] := by
  refine ⟨s.waitFor cfg h t e d, by simp [step, hf, hu], ?_⟩
  simp [Calls, St.waitFor, hk, St.call]

/-- A packet for a `UdpHandle` that waits, out of a `UdpHandle::write` of the running user code. -/
theorem calls_of_arrive {ok : St → Input → Prop} {h : Gea.Handle} {r : Gea.Reg} (hs : Reaches cfg ok s)
    (hf : s.failed = none) (hu : s.user = true) (hk : cfg.kind h = .udpRead) (hb : s.status h = .blocked)
    (hp : s.timer h = .pending) (hsl : s.slot h = some r) :
    ∃ s', step cfg s (.arrive h) = some s' ∧ Calls s s' r .process_data [.drain, .recv h] := by
  have hr : r.h = h := (wf_reaches hs).slot_h hsl
  refine ⟨processData cfg s h, by simp [step, hf, hu, hk], ?_⟩
  simp [Calls, processData, hb, hp, hsl, St.call, St.cancel, St.remove, hr]

/-- The entries that a `waitFor` in write mode still has to call. -/
def pendingBehind (s : St) (todo : List EventDescr) : List EventDescr := todo ++ s.pendingList

/-- Behind a callback of a `waitFor` in write mode: the next pending entry is called, and the others stay
pending; when there is none, the `waitFor` returns to the user code that called it. -/
theorem ret_of_write {h : Gea.Handle} {r : Gea.Reg} {t : Gea.AbsTime} {todo : List EventDescr} {f : Frame}
    {fs : List Frame} (hf : s.failed = none) (hs : s.stack = .cb r :: .pend t todo :: .write h :: f :: fs)
    (hu : f.user = true) :
    ∃ s', step cfg s .ret = some s' ∧ match pendingBehind s todo with
      | [] => s'.log = s.log ∧ s'.stack = f :: fs
      | p :: rest => s.timer p.reg.h = .pending → ∃ todo',
          s'.log = s.log ++ [⟨p.reg, t, s.status p.reg.h, .doPendingEvents⟩] ∧
          s'.stack = .cb p.reg :: .pend t todo' :: .write h :: f :: fs ∧ pendingBehind s' todo' = rest := by
  refine ⟨resume s.stack.tail s, by simp [step, hf, hs], ?_⟩
  have hback : resume (f :: fs) s = { s with stack := f :: fs } := by
    cases f with
    | main | cb => rfl
    | pend | drain | timer | write | recv => cases hu
  rw [hs, List.tail_cons]
  cases todo with
  | cons p rest =>
    intro hp
    refine ⟨rest, ?_⟩
    simp [resume, runPending, hp, St.call, St.cancel, St.remove, pendingBehind]
  | nil =>
    cases hl : s.pendingList with
    | nil =>
      have hdone : resume (.pend t [] :: .write h :: f :: fs) s = { s with stack := f :: fs } := by
        simp only [resume, doPendingEvents, hl, hback]
      rw [hdone]
      simp [pendingBehind, hl]
    | cons p rest =>
      simp only [pendingBehind, hl, List.nil_append]
      intro hp
      refine ⟨rest, ?_⟩
      simp [resume, doPendingEvents, hl, runPending, hp, St.call, St.cancel, St.remove]

end Ns2

namespace Gea

/-- **Run to completion, on both backends.** On POSIX, nothing but the return of the running user
code calls a callback. On ns-2, `waitFor` on a `Blocker`, a `DependHandle` or a `UdpHandle` in read
mode and `complied` call nothing. `waitFor` on a `UdpHandle` in write mode calls the callback at once,
and goes on with the pending entries; a packet that the running user code sends is received at once.
User code that waits on the stack waits in one of these two calls. -/
theorem run_to_completion :
    (∀ (cfg : Posix.Cfg) (clock : Nat → AbsTime) (s s' : Posix.St) (i : Posix.Input), s.ctl.user = true →
      i ≠ .ret → Posix.step cfg clock s i = some s' → s'.log = s.log) ∧
    (∀ (cfg : Ns2.Cfg) (s s' : Ns2.St) (i : Ns2.Input), Ns2.Plain cfg i → Ns2.step cfg s i = some s' →
      s'.log = s.log ∧ s'.stack = s.stack) ∧
    (∀ (cfg : Ns2.Cfg) (s : Ns2.St) (h : Handle) (t : AbsTime) (e : Event) (d : Data), s.failed = none →
      s.user = true → cfg.kind h = .udpWrite → ∃ s', Ns2.step cfg s (.waitFor h t e d) = some s' ∧
        Ns2.Calls s s' ⟨s.regs.length, h, t, e, d⟩ .waitFor [.pend t [], .write h]) ∧
    (∀ (cfg : Ns2.Cfg) (s : Ns2.St) (h : Handle) (r : Reg) (t : AbsTime) (todo : List Ns2.EventDescr)
      (f : Ns2.Frame) (fs : List Ns2.Frame), s.failed = none → s.stack = .cb r :: .pend t todo :: .write h :: f :: fs →
      f.user = true → ∃ s', Ns2.step cfg s .ret = some s' ∧ match Ns2.pendingBehind s todo with
        | [] => s'.log = s.log ∧ s'.stack = f :: fs
        | p :: rest => s.timer p.reg.h = .pending → ∃ todo',
            s'.log = s.log ++ [⟨p.reg, t, s.status p.reg.h, .doPendingEvents⟩] ∧
            s'.stack = .cb p.reg :: .pend t todo' :: .write h :: f :: fs ∧ Ns2.pendingBehind s' todo' = rest) ∧
    (∀ (cfg : Ns2.Cfg) (s : Ns2.St) (h : Handle) (r : Reg), Ns2.Reaches cfg Lts.Any s → s.failed = none →
      s.user = true → cfg.kind h = .udpRead → s.status h = .blocked → s.timer h = .pending → s.slot h = some r →
      ∃ s', Ns2.step cfg s (.arrive h) = some s' ∧ Ns2.Calls s s' r .process_data [.drain, .recv h]) ∧
    ∀ (cfg : Ns2.Cfg) (s : Ns2.St), Ns2.Reaches cfg Lts.Any s → Ns2.StackInv cfg s :=
  ⟨fun _ _ _ _ _ hu hi hs => Posix.log_of_user hu hi hs, fun _ _ _ _ hi hs => Ns2.log_of_plain hi hs,
    fun _ _ _ t e d hf hu hk => Ns2.calls_of_write t e d hf hu hk, fun _ _ _ _ _ _ _ _ hf hs hu => Ns2.ret_of_write hf hs hu,
    fun _ _ _ _ hs hf hu hk hb hp hsl => Ns2.calls_of_arrive hs hf hu hk hb hp hsl, fun _ _ h => Ns2.stackInv h⟩

/-- `broadcast.cc`: the `Blocker`'s callback waits to write. -/
def broadcastRun : List Ns2.Input :=
  [.start 1, .waitFor 0 10 0 0, .ret, .dispatch ⟨10, .gea ⟨0, 0, 10, 0, 0⟩⟩, .waitFor 0 20 0 0, .waitFor 4 11 1 0]

/-- `write_ready_event` is called from within that `waitFor`. -/
theorem callback_in_callback : ¬∀ cfg s, Ns2.Reaches cfg Lts.Any s →
    (s.stack.filter fun f => match f with | .cb _ => true | _ => false).length ≤ 1 := by
  intro h
  have hone := h Ns2.sampleCfg _ (Ns2.reaches_get broadcastRun (by decide))
  revert hone
  decide

/-- A packet and the pending entry of a `DependHandle` wait when a `Blocker`'s callback comes to its `write`. -/
def sendingRun : List Ns2.Input :=
  [.start 1, .waitFor 3 50 0 0, .waitFor 1 50 0 0, .waitFor 0 10 0 0, .ret, .dispatch ⟨10, .gea ⟨2, 0, 10, 0, 0⟩⟩,
    .complied 1]

theorem run_to_completion_broadcast :
    let s := (Lts.execOk (Ns2.step Ns2.sampleCfg) Lts.Any Ns2.St.fresh sendingRun).get (by decide)
    let w := (Lts.execOk (Ns2.step Ns2.sampleCfg) Lts.Any Ns2.St.fresh (sendingRun ++ [.waitFor 4 11 1 0])).get (by decide)
    (∃ s', Ns2.step Ns2.sampleCfg s (.waitFor 4 11 1 0) = some s' ∧
      Ns2.Calls s s' ⟨3, 4, 11, 1, 0⟩ .waitFor [.pend 11 [], .write 4]) ∧
    (∃ s', Ns2.step Ns2.sampleCfg w .ret = some s' ∧ ∃ todo,
      s'.log = w.log ++ [⟨⟨1, 1, 50, 0, 0⟩, 11, .ready, .doPendingEvents⟩] ∧
      s'.stack = [.cb ⟨1, 1, 50, 0, 0⟩, .pend 11 todo, .write 4, .cb ⟨2, 0, 10, 0, 0⟩, .pend 10 []] ∧
      Ns2.pendingBehind s' todo = []) ∧
    (∃ s', Ns2.step Ns2.sampleCfg s (.arrive 3) = some s' ∧
      Ns2.Calls s s' ⟨0, 3, 50, 0, 0⟩ .process_data [.drain, .recv 3]) ∧
    Ns2.StackInv Ns2.sampleCfg w := by
  intro s w
  obtain ⟨-, -, hwrite, hret, harrive, hstack⟩ := run_to_completion
  refine ⟨hwrite Ns2.sampleCfg s 4 11 1 0 (by decide) (by decide) rfl, ?_, ?_, ?_⟩
  · obtain ⟨s', hs', hcalls⟩ := hret Ns2.sampleCfg w 4 ⟨3, 4, 11, 1, 0⟩ 11 [] (.cb ⟨2, 0, 10, 0, 0⟩) [.pend 10 []]
      (by decide) (by decide) rfl
    exact ⟨s', hs', hcalls (by decide)⟩
  · exact harrive Ns2.sampleCfg s 3 ⟨0, 3, 50, 0, 0⟩ (Ns2.reaches_get sendingRun (by decide)) (by decide) (by decide) rfl
      (by decide) (by decide) (by decide)
  · exact hstack _ _ (Ns2.reaches_get (sendingRun ++ [.waitFor 4 11 1 0]) (by decide))

end Gea
