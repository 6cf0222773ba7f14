import Awds.Ns2.Invariant

/-!
# The node a callback runs on

`ShadowEventHandler::currentNode` says whose objects and address a callback sees. `handle`,
`process_data` and `do_timeout` set it; `ShadowDepend::expire`, `doPendingEvents` and the write
branch of `waitFor` call with whatever node is current. `own_node`: the callbacks run on their own
handle's node as long as the latter find the right one (`OnNode`).
-/

namespace Ns2

open Gea

/-- The frame has a `doPendingEvents` to do. -/
def Frame.pends : Frame → Bool
  | .pend _ _ | .drain => true
  | _ => false

/-- The dispatch paths that do not set `currentNode` find the one of the handle:
- the timer of a `DependHandle` expires on the handle's node;
- `waitFor` on a `UdpHandle` in write mode is called on the handle's node;
- `doPendingEvents` takes up entries of the current node only;
- and a packet that arrives while user code runs is one for that node, which goes on behind it. -/
def OnNode (cfg : Cfg) (s : St) : Input → Prop
  | .dispatch x => match x.ev with
    | .timer h => cfg.kind h = .depend → s.currentNode = cfg.node h
    | _ => True
  | .waitFor h _ _ _ => cfg.kind h = .udpWrite → s.currentNode = cfg.node h
  | .ret => (∃ f ∈ s.stack, f.pends = true) → ∀ p ∈ s.pendingList, s.currentNode = cfg.node p.reg.h
  | .arrive h => s.stack ≠ [] → s.status h = .blocked → s.currentNode = cfg.node h
  | _ => True

instance (cfg : Cfg) (s : St) : (i : Input) → Decidable (OnNode cfg s i)
  | .dispatch ⟨_, .timer h⟩ => inferInstanceAs (Decidable (cfg.kind h = .depend → s.currentNode = cfg.node h))
  | .dispatch ⟨_, .gea _⟩ => isTrue trivial
  | .waitFor h _ _ _ => inferInstanceAs (Decidable (cfg.kind h = .udpWrite → s.currentNode = cfg.node h))
  | .ret => inferInstanceAs (Decidable ((∃ f ∈ s.stack, f.pends = true) →
      ∀ p ∈ s.pendingList, s.currentNode = cfg.node p.reg.h))
  | .arrive h => inferInstanceAs (Decidable (s.stack ≠ [] → s.status h = .blocked → s.currentNode = cfg.node h))
  | .start _ | .advance _ | .complied _ => isTrue trivial

/-- The running callback runs on the node of its handle. -/
def St.OwnNode (cfg : Cfg) (s : St) : Prop := ∀ r ∈ (match s.stack with | .cb r :: _ => some r | _ => none),
  s.currentNode = cfg.node r.h

instance (cfg : Cfg) (s : St) : Decidable (s.OwnNode cfg) := by unfold St.OwnNode; infer_instance

/-- All callbacks on the stack, and the entries still to be called, belong to the current node. -/
structure NodeInv (cfg : Cfg) (s : St) : Prop where
  cb : ∀ r, .cb r ∈ s.stack → s.currentNode = cfg.node r.h
  todo : ∀ p ∈ todos s.stack, s.currentNode = cfg.node p.reg.h

/-- Behind a return: so do the entries that will be taken up. -/
structure UnwindInv (cfg : Cfg) (s : St) : Prop where
  node : NodeInv cfg s
  pending : (∃ f ∈ s.stack, f.pends = true) → ∀ p ∈ s.pendingList, s.currentNode = cfg.node p.reg.h

variable {cfg : Cfg} {s s' : St}

/-- A callback is called, with frames above the stack that have no `todo`. -/
theorem NodeInv.calls {r : Reg} (h : NodeInv cfg s) (fs : List Frame) (hs : s'.stack = .cb r :: fs ++ s.stack)
    (hfs : ∀ f ∈ fs, f.user = false ∧ f.todo = []) (hn : s'.currentNode = cfg.node r.h)
    (hc : s.stack ≠ [] → s'.currentNode = s.currentNode) : NodeInv cfg s' := by
  have hcur : ∀ {f : Frame}, f ∈ s.stack → s'.currentNode = s.currentNode := fun hf => hc (List.ne_nil_of_mem hf)
  constructor
  · intro x hx
    rw [hs, List.cons_append, List.mem_cons, List.mem_append] at hx
    rcases hx with hx | hx | hx
    · cases hx; exact hn
    · cases (hfs _ hx).1
    · rw [hcur hx]; exact h.cb x hx
  · intro p hp
    rw [hs, List.cons_append, todos_cons] at hp
    simp only [todos, List.flatMap_append, List.mem_append, List.mem_flatMap] at hp
    rcases hp with hp | ⟨f, hf, hp⟩ | ⟨f, hf, hp⟩
    · cases hp
    · rw [(hfs f hf).2] at hp; cases hp
    · rw [hcur hf]; exact h.todo p (List.mem_flatMap.2 ⟨f, hf, hp⟩)

theorem nodeInv_step {i : Input} (hw : Wf cfg s) (h : NodeInv cfg s) (ho : OnNode cfg s i) (hs : Step cfg s i s') :
    NodeInv cfg s' := by
  cases hs with
  | start n hs => exact ⟨by simp [geaStart, hs], by simp [geaStart, hs, Frame.todo]⟩
  | advance | backwards | sanity | unset | noEvent | insane | cancel | uninitialised | blocker | setupEvent | complied =>
    exact ⟨h.cb, h.todo⟩
  | ignored | notBlocked => exact h
  | noHandler _ _ hp _ => simp only [St.cancel, if_pos hp]; exact ⟨h.cb, h.todo⟩
  | activate => unfold St.activate; dsimp only; split <;> exact ⟨h.cb, h.todo⟩
  | handle hs _ _ _ =>
    exact h.calls [.pend _ []] rfl (by simp [Frame.user, Frame.todo]) rfl (absurd hs)
  | @expire x k r hs _ _ he _ hk hsl =>
    simp only [OnNode, he] at ho
    exact h.calls [.timer k] rfl (by simp [Frame.user, Frame.todo]) ((ho hk).trans (by rw [hw.slot_h hsl]))
      (absurd hs)
  | @doTimeout x k r hs _ _ _ _ hsl =>
    exact h.calls [.drain, .timer k] rfl (by simp [Frame.user, Frame.todo])
      (congrArg cfg.node (hw.slot_h hsl).symm) (absurd hs)
  | @receive k r _ _ hb _ hsl =>
    exact h.calls [.drain, .recv k] rfl (by simp [Frame.user, Frame.todo])
      (congrArg cfg.node (hw.slot_h hsl).symm) (fun hne => (ho hne hb).symm)
  | @write k t e d _ hk =>
    exact h.calls [.pend t [], .write k] rfl (by simp [Frame.user, Frame.todo]) (ho hk) (fun _ => rfl)
  | @ret f fs hs _ =>
    refine ⟨fun r hr => h.cb r (by rw [hs]; exact List.mem_cons_of_mem _ hr), fun p hp => h.todo p ?_⟩
    rw [hs, todos_cons]; exact List.mem_append_right _ hp

theorem UnwindInv.pop {f : Frame} {fs : List Frame} (h : UnwindInv cfg s) (hs : s.stack = f :: fs) :
    UnwindInv cfg { s with stack := fs } := by
  refine ⟨⟨fun r hr => h.node.cb r (by rw [hs]; exact List.mem_cons_of_mem _ hr), fun p hp => h.node.todo p ?_⟩,
    fun ⟨x, hx, hxp⟩ => h.pending ⟨x, by rw [hs]; exact List.mem_cons_of_mem _ hx, hxp⟩⟩
  rw [hs, todos_cons]; exact List.mem_append_right _ hp

theorem unwindInv_unwind (h : UnwindInv cfg s) (hu : Unwind s s') : UnwindInv cfg s' := by
  cases hu with
  | pop hs | done hs => exact h.pop hs
  | timer hs =>
    have hpop := h.pop hs
    unfold St.settle
    split <;> exact ⟨⟨hpop.node.cb, hpop.node.todo⟩, hpop.pending⟩
  | @take f fs t p todo hs hf hp =>
    have hpend : ∀ q ∈ s.pendingList, s.currentNode = cfg.node q.reg.h :=
      h.pending ⟨f, by rw [hs]; exact List.mem_cons_self, by rcases hf with ⟨rfl, -⟩ | rfl <;> rfl⟩
    have hpop := h.pop hs
    refine ⟨⟨fun r hr => hpop.node.cb r (by simpa using hr), fun q hq => ?_⟩, fun _ q hq => absurd hq (by simp)⟩
    rw [todos_cons, List.mem_append] at hq
    rcases hq with hq | hq
    · exact hpend q (hp ▸ hq)
    · exact hpop.node.todo q hq
  | @run t p todo fs hs _ =>
    have hnode := h.node.todo
    rw [hs, todos_cons] at hnode
    refine ⟨⟨fun r hr => ?_, fun q hq => ?_⟩, fun _ q hq => ?_⟩
    · simp only [St.run, St.call, List.mem_cons, Frame.cb.injEq, reduceCtorEq, false_or] at hr
      rcases hr with rfl | hr
      · exact hnode p (by simp [Frame.todo])
      · exact h.node.cb r (by rw [hs]; exact List.mem_cons_of_mem _ hr)
    · refine hnode q ?_
      simp only [St.run, St.call, todos_cons, Frame.todo, List.nil_append, List.mem_append, List.mem_cons] at hq ⊢
      tauto
    · exact h.pending ⟨_, by rw [hs]; exact List.mem_cons_self, rfl⟩ q hq
  | @stuck t p todo fs hs _ =>
    have hnode := h.node.todo
    rw [hs, todos_cons] at hnode
    refine ⟨⟨fun r hr => ?_, fun q hq => ?_⟩, fun _ q hq => ?_⟩
    · exact h.node.cb r (by rw [hs]; simpa [St.fail] using hr)
    · refine hnode q ?_
      simp only [St.fail, todos_cons, Frame.todo, List.mem_append, List.mem_cons] at hq ⊢
      tauto
    · exact h.pending ⟨_, by rw [hs]; exact List.mem_cons_self, rfl⟩ q hq

theorem nodeInv_run {i : Input} (hw : Wf cfg s) (h : NodeInv cfg s) (ho : OnNode cfg s i)
    (hs : step cfg s i = some s') : NodeInv cfg s' := by
  obtain ⟨-, v, hv, rfl | ⟨rfl, hu⟩⟩ := step_cases hs
  · exact nodeInv_step hw h ho hv
  · have hv' := nodeInv_step hw h ho hv
    have hinv : UnwindInv cfg v := by
      cases hv with
      | ret hs hf =>
        exact ⟨hv', fun ⟨x, hx, hxp⟩ => ho ⟨x, by rw [hs]; exact List.mem_cons_of_mem _ hx, hxp⟩⟩
    clear hs hv hv'
    have : UnwindInv cfg s' := by
      induction hu with
      | refl => exact hinv
      | tail _ hu ih => exact unwindInv_unwind ih hu
    exact this.node

/-- **Every callback runs on its own node**, on any interleaving of the nodes' events in which the
dispatch paths that do not set `currentNode` find the right one. -/
theorem own_node (cfg : Cfg) (s : St) (hs : Reaches cfg (OnNode cfg) s) : s.OwnNode cfg := by
  have hI : NodeInv cfg s := by
    obtain ⟨status, hr⟩ := hs
    induction hr with
    | refl => exact ⟨by simp [St.init], by simp [St.init]⟩
    | tail hr ho hstep ih => exact nodeInv_run (wf_reaches ⟨status, hr⟩) ih ho hstep
  intro r hr
  split at hr
  · rename_i x fs hst
    cases hr
    exact hI.cb r (by rw [hst]; exact List.mem_cons_self)
  · cases hr

/-- Node 1 waits for a dependency until 20; node 2 has a `Blocker` due at 10. -/
def twoNodes : List Input :=
  [.start 1, .waitFor 1 20 0 0, .ret, .start 2, .waitFor 5 10 0 0, .ret, .dispatch ⟨10, .gea ⟨1, 5, 10, 0, 0⟩⟩, .ret]

/-- The timer of the dependency expires behind node 2's event, and its callback runs as node 2. -/
theorem expires_on_other_node : ¬∀ cfg s, Reaches cfg Lts.Any s → s.OwnNode cfg := by
  intro h
  have hnode := h sampleCfg _ (reaches_get (twoNodes ++ [.dispatch ⟨20, .timer 1⟩]) (by decide))
  revert hnode
  decide

theorem own_node_two :
    ((Lts.execOk (step sampleCfg) (OnNode sampleCfg) St.fresh
      (twoNodes ++ [.start 1, .ret, .dispatch ⟨20, .timer 1⟩])).get (by decide)).OwnNode sampleCfg :=
  own_node sampleCfg _ (reaches_get _ (by decide))

end Ns2
