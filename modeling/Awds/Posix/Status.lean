import Awds.Posix.Step

/-!
# The status a callback finds

`Handle::status` is one field for all registrations of a handle. It is written when a batch is
collected and read when each callback runs. `status_exactly`: the callbacks find the status of the
branch that calls them (`Phase.status`) as long as no callback of a batch calls `waitFor` on the
handle of an entry still to be called (`NoOverwrite`); after such a call the entry is called with
status `Blocked`, unless `complied` is called on the handle in between.
-/

namespace Posix

open Gea

/-- `Timeout` when the deadline passed, `Ready` when the descriptor is ready or `complied` was called. -/
def Phase.status : Phase → Status
  | .timeout => .timeout
  | .io | .dep => .ready

/-- Every callback found the status that says why it was called. -/
def St.Told (s : St) : Prop := ∀ inv ∈ s.log, inv.status = inv.phase.status

instance (s : St) : Decidable s.Told := inferInstanceAs (Decidable (∀ inv ∈ s.log, _))

/-- No callback of a batch registers on the handle of an entry of the batch still to be called. -/
def NoOverwrite (s : St) : Input → Prop
  | .waitFor h _ _ _ => ∀ ec ∈ s.ctl.rest, ec.reg.h ≠ h
  | _ => True

instance (s : St) : (i : Input) → Decidable (NoOverwrite s i)
  | .waitFor h _ _ _ => inferInstanceAs (Decidable (∀ ec ∈ s.ctl.rest, ec.reg.h ≠ h))
  | .enter | .wake _ | .complied _ | .ret => isTrue trivial

variable {cfg : Cfg} {clock : Nat → AbsTime}

/-- The entries of the batch still to be called are marked `Ready`. -/
structure Marked (s : St) : Prop where
  told : s.Told
  ready : ∀ ec ∈ s.ctl.rest, s.status ec.reg.h = .ready

theorem told_append {s s' : St} {inv : Invocation} (h : s.Told) (hl : s'.log = s.log ++ [inv])
    (hi : inv.status = inv.phase.status) : s'.Told := by
  intro x hx
  rw [hl, List.mem_append, List.mem_singleton] at hx
  rcases hx with hx | rfl
  · exact h x hx
  · exact hi

theorem marked_batch {pred : Reg → Bool} {s : St} {ec : EventCall} {rest : List EventCall} {ctl : Ctl} {ph : Phase}
    (h : s.Told) (hcol : Collected clock pred s (ec :: rest)) (hr : ctl.rest = rest) (hp : ph.status = .ready) :
    Marked (s.batch pred ctl ec ph) := by
  refine ⟨told_append h rfl hp.symm, fun x hx => ?_⟩
  have hx' : x ∈ ec :: rest := List.mem_cons_of_mem _ (hr ▸ hx)
  exact if_pos ⟨x.reg, List.mem_filter.2 (hcol.mem hx'), rfl⟩

theorem marked_depPhase {s : St} (h : s.Told) : Marked (depPhase cfg clock s) := by
  rcases depPhase_cases cfg clock s with ⟨_, he⟩ | ⟨ec, rest, hcol, he⟩
  · rw [he]; exact ⟨h, by simp [Ctl.rest]⟩
  · rw [he]; exact marked_batch h hcol rfl rfl

theorem marked_ioPhase {s : St} {set : FdSets} (h : s.Told) : Marked (ioPhase cfg clock set s) := by
  rcases ioPhase_cases cfg clock set s with ⟨_, he⟩ | ⟨ec, rest, hcol, he⟩
  · rw [he]; exact marked_depPhase h
  · rw [he]; exact marked_batch h hcol rfl rfl

theorem marked_next {s : St} {ctl : Ctl} {ec : EventCall} {rest : List EventCall} {ph : Phase} (h : Marked s)
    (hr : s.ctl.rest = ec :: rest) (hr' : ctl.rest = rest) (hp : ph.status = .ready) :
    Marked ({ s with ctl := ctl }.invoke ec.reg ec.t ph) := by
  have hready : ∀ x ∈ ec :: rest, s.status x.reg.h = .ready := hr ▸ h.ready
  refine ⟨told_append h.told rfl ?_, fun x hx => ?_⟩
  · rw [hp]; exact hready ec List.mem_cons_self
  · exact hready x (List.mem_cons_of_mem _ (hr' ▸ hx))

theorem marked_step {s s' : St} {i : Input} (h : Marked s) (ho : NoOverwrite s i) (hs : Step cfg clock s i s') :
    Marked s' := by
  cases hs with
  | returned | select | overflow | failed | retMain => exact ⟨h.told, by simp [Ctl.rest]⟩
  | timeout => exact ⟨told_append h.told rfl (by simp [Phase.status]), by simp [timeoutPhase, St.invoke, Ctl.rest]⟩
  | ready => exact marked_ioPhase h.told
  | waitFor k t e d _ =>
    refine ⟨h.told, fun ec hec => ?_⟩
    simp only [St.waitFor, Function.update_of_ne (ho ec hec)]
    exact h.ready ec hec
  | complied d _ _ =>
    refine ⟨h.told, fun ec hec => ?_⟩
    simp only [St.complied, Function.update_apply]
    split
    · rfl
    · exact h.ready ec hec
  | retTimeout | retIo | retDep => exact marked_depPhase h.told
  | nextIo hc => exact marked_next h (by simp [hc, Ctl.rest]) rfl rfl
  | nextDep hc => exact marked_next h (by simp [hc, Ctl.rest]) rfl rfl

theorem marked {s : St} (h : Reaches cfg clock NoOverwrite s) : Marked s :=
  h.invariant (fun _ => ⟨by simp [St.Told, St.init], by simp [St.init, Ctl.rest]⟩)
    fun _ _ _ hI ho hs => marked_step hI ho hs

/-! ### An overwritten status -/

/-- `ec` is still to be called and its handle is `Blocked`, or it was called so. -/
def Overwritten (ec : EventCall) (s : St) : Prop :=
  (ec ∈ s.ctl.rest ∧ s.status ec.reg.h = .blocked) ∨
    ∃ inv ∈ s.log, inv.reg = ec.reg ∧ inv.t = ec.t ∧ inv.status = .blocked

theorem overwritten_next {ec x : EventCall} {s : St} {ctl : Ctl} {rest : List EventCall} {ph : Phase}
    (h : ec ∈ s.ctl.rest ∧ s.status ec.reg.h = .blocked) (hr : s.ctl.rest = x :: rest) (hr' : ctl.rest = rest) :
    Overwritten ec ({ s with ctl := ctl }.invoke x.reg x.t ph) := by
  rw [hr] at h
  rcases List.mem_cons.1 h.1 with rfl | hm
  · exact .inr ⟨_, List.mem_append_right _ (List.mem_singleton_self _), rfl, rfl, h.2⟩
  · exact .inl ⟨by rw [← hr'] at hm; exact hm, h.2⟩

theorem overwritten_step {ec : EventCall} {s s' : St} {i : Input} (h : Overwritten ec s)
    (hi : i ≠ .complied ec.reg.h) (hs : Step cfg clock s i s') : Overwritten ec s' := by
  rcases h with h | ⟨inv, hm, hinv⟩
  · cases hs with
    | returned hc | select hc | overflow hc | timeout hc | ready _ hc | failed hc | retMain hc | retTimeout hc | retIo hc
    | retDep hc =>
      rw [hc] at h; simp [Ctl.rest] at h
    | waitFor k t e d _ =>
      refine .inl ⟨h.1, ?_⟩
      simp only [St.waitFor, Function.update_apply]
      split
      · rfl
      · exact h.2
    | complied d _ _ =>
      refine .inl ⟨h.1, ?_⟩
      have hne : ec.reg.h ≠ d := fun he => hi (by rw [he])
      simp only [St.complied, Function.update_of_ne hne]
      exact h.2
    | nextIo hc => exact overwritten_next h (by simp [hc, Ctl.rest]) rfl
    | nextDep hc => exact overwritten_next h (by simp [hc, Ctl.rest]) rfl
  · exact .inr ⟨inv, hs.log.subset hm, hinv⟩

/-- **Status tells a callback why it runs, exactly when.** While no callback of a batch registers on
the handle of an entry still to be called, every callback finds its status. After such a
registration, and without a `complied` on the handle, the entry is called with status `Blocked`. -/
theorem status_exactly (cfg : Cfg) (clock : Nat → AbsTime) :
    (∀ s, Reaches cfg clock NoOverwrite s → s.Told) ∧
    (∀ (s s' : St) (ec : EventCall) t e d, ec ∈ s.ctl.rest →
      Lts.Reach (step cfg clock) (fun _ i => i ≠ .complied ec.reg.h) (s.waitFor ec.reg.h t e d) s' →
      s'.ctl.rest = [] → ∃ inv ∈ s'.log, inv.reg = ec.reg ∧ inv.t = ec.t ∧ inv.status = .blocked) := by
  refine ⟨fun s h => (marked h).told, fun s s' ec t e d hec hr hrest => ?_⟩
  have h0 : Overwritten ec (s.waitFor ec.reg.h t e d) := .inl ⟨hec, by simp [St.waitFor]⟩
  have h' : Overwritten ec s' := hr.invariant h0 fun _ _ _ hI hi hs => overwritten_step hI hi (step_cases hs)
  rcases h' with ⟨hm, -⟩ | h'
  · rw [hrest] at hm; exact absurd hm (by simp)
  · exact h'

/-- Two registrations on standard input, both due at once; the first callback registers again. -/
def twoReaders : List Input :=
  [.waitFor 3 10 0 0, .waitFor 3 20 0 0, .ret, .enter, .wake (.ready fun _ => [0])]

/-- The second of them finds `Blocked`, and its `UnixFdHandle::read` asserts `Ready`. -/
theorem second_reader_blocked : ¬∀ cfg clock s, Reaches cfg clock Lts.Any s → s.Told := by
  intro h
  have htold := h sampleCfg (fun _ => 5) _ (reaches_get 0 (twoReaders ++ [.waitFor 3 30 0 0, .ret]) (by decide))
  revert htold
  decide

theorem status_exactly_readers :
    ((Lts.execOk (step sampleCfg fun _ => 5) NoOverwrite (St.init 0) (twoReaders ++ [.ret])).get (by decide)).Told ∧
      ∃ inv ∈ ((Lts.execOk (step sampleCfg fun _ => 5) Lts.Any (St.init 0)
        (twoReaders ++ [.waitFor 3 30 0 0, .ret])).get (by decide)).log, inv.reg.id = 1 ∧ inv.status = .blocked := by
  refine ⟨(status_exactly sampleCfg fun _ => 5).1 _ (reaches_get 0 _ (by decide)), ?_⟩
  obtain ⟨inv, hm, hreg, -, hst⟩ := (status_exactly sampleCfg fun _ => 5).2
    ((Lts.execOk (step sampleCfg fun _ => 5) Lts.Any (St.init 0) twoReaders).get (by decide))
    ((Lts.execOk (step sampleCfg fun _ => 5) Lts.Any (St.init 0)
      (twoReaders ++ [.waitFor 3 30 0 0, .ret])).get (by decide))
    ⟨5, ⟨1, 3, 20, 0, 0⟩⟩ 30 0 0 (by decide) (.single (i := .ret) (by simp) (by rfl)) (by rfl)
  exact ⟨inv, hm, by rw [hreg], hst⟩

end Posix
