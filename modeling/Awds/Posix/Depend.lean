import Awds.Posix.Step

/-!
# `complied` wakes up the waiting event handlers

`DependHandle::complied` (`DependHandle.h:34`) promises to "wake up all waiting event handlers".
`complied_wakes_up`: a registration that is pending when a callback calls `complied` on its handle
is called, with status `Ready`, before the loop calls `select` again. This rests on three things
(`KeepsTriggers`): the flags are reset after the whole batch was called (:305), which must not
clear one that a callback of the batch has just set; the timeout branch must not erase a
registration it did not call (:284); and the status of an entry still to be called must stay.
-/

namespace Posix

open Gea

/-- The callback of `r` was called. -/
def St.Dispatched (s : St) (r : Reg) : Prop := ∃ inv ∈ s.log, inv.reg = r

/-- `r` was registered and its callback was not called yet. -/
def St.Pending (s : St) (r : Reg) : Prop := r ∈ s.regs ∧ ¬s.Dispatched r

/-- The callback of `r` was called in the dependency phase, with status `Ready`. -/
def St.Woken (s : St) (r : Reg) : Prop := ∃ inv ∈ s.log, inv.reg = r ∧ inv.status = .ready ∧ inv.phase = .dep

instance (s : St) (r : Reg) : Decidable (s.Dispatched r) := inferInstanceAs (Decidable (∃ inv ∈ s.log, _))
instance (s : St) (r : Reg) : Decidable (s.Pending r) := inferInstanceAs (Decidable (_ ∧ _))
instance (s : St) (r : Reg) : Decidable (s.Woken r) := inferInstanceAs (Decidable (∃ inv ∈ s.log, _))

/-- The steps on which no wake-up is lost:
- when the timeout branch erases the front of `eventList`, that is the entry it called, or no
  registration on a `DependHandle`;
- a callback of a dependency batch calls `complied` on a handle of the batch only while no
  registration on that handle is in `eventList`;
- and it calls `waitFor` on no handle of an entry of the batch still to be called. -/
def KeepsTriggers (cfg : Cfg) (s : St) : Input → Prop
  | .ret => match s.ctl with
    | .timeout r => ∀ y ∈ s.eventList.head?, y = r ∨ cfg.isDepend y.h = false
    | _ => True
  | .complied d => match s.ctl with
    | .dep elist _ => (∃ ec ∈ elist, ec.reg.h = d) → ∀ r ∈ s.eventList, r.h ≠ d
    | _ => True
  | .waitFor h _ _ _ => match s.ctl with
    | .dep _ rest => ∀ ec ∈ rest, ec.reg.h ≠ h
    | _ => True
  | _ => True

instance (cfg : Cfg) (s : St) : (i : Input) → Decidable (KeepsTriggers cfg s i)
  | .ret => match hc : s.ctl with
    | .timeout r => decidable_of_iff (∀ y ∈ s.eventList.head?, y = r ∨ cfg.isDepend y.h = false)
        (by simp only [KeepsTriggers, hc])
    | .main | .loop | .select _ | .io _ | .dep _ _ | .returned | .aborted =>
      isTrue (by simp only [KeepsTriggers, hc])
  | .complied d => match hc : s.ctl with
    | .dep elist _ => decidable_of_iff ((∃ ec ∈ elist, ec.reg.h = d) → ∀ r ∈ s.eventList, r.h ≠ d)
        (by simp only [KeepsTriggers, hc])
    | .main | .loop | .select _ | .timeout _ | .io _ | .returned | .aborted =>
      isTrue (by simp only [KeepsTriggers, hc])
  | .waitFor h _ _ _ => match hc : s.ctl with
    | .dep _ rest => decidable_of_iff (∀ ec ∈ rest, ec.reg.h ≠ h) (by simp only [KeepsTriggers, hc])
    | .main | .loop | .select _ | .timeout _ | .io _ | .returned | .aborted =>
      isTrue (by simp only [KeepsTriggers, hc])
  | .enter | .wake _ => isTrue trivial

variable {cfg : Cfg} {clock : Nat → AbsTime} {s s' : St}

theorem St.Dispatched.mono {r : Reg} (h : s.Dispatched r) (hl : s.log <+: s'.log) : s'.Dispatched r :=
  let ⟨inv, hm, hr⟩ := h
  ⟨inv, hl.subset hm, hr⟩

theorem dispatched_of_log {r : Reg} {inv : Invocation} (hl : s'.log = s.log ++ [inv]) (hr : inv.reg = r) :
    s'.Dispatched r :=
  ⟨inv, by simp [hl], hr⟩

theorem activeFd_not_depend {set : FdSets} {r : Reg} (h : activeFd cfg set r = true) : cfg.isDepend r.h = false := by
  simp only [activeFd, Cfg.isUnixFdHandle, Cfg.isUdpHandle, Cfg.isDepend, Bool.and_eq_true, Bool.or_eq_true,
    beq_iff_eq] at h ⊢
  rcases h.1 with h | h <;> simp [h]

/-! ### No registration on a `DependHandle` is lost -/

/-- A registration on a `DependHandle` waits in `eventList`, waits in the batch, or was called. -/
structure Held (cfg : Cfg) (s : St) : Prop where
  kept : ∀ r ∈ s.regs, cfg.isDepend r.h = true →
    r ∈ s.eventList ∨ (∃ ec ∈ s.ctl.rest, ec.reg = r) ∨ s.Dispatched r
  called : ∀ r, s.ctl = .timeout r → s.Dispatched r
  io : ∀ rest, s.ctl = .io rest → ∀ ec ∈ rest, cfg.isDepend ec.reg.h = false

/-- The same between two phases of the loop, when there is no batch. -/
def St.HeldBetween (cfg : Cfg) (s : St) : Prop :=
  ∀ r ∈ s.regs, cfg.isDepend r.h = true → r ∈ s.eventList ∨ s.Dispatched r

theorem Held.between (h : Held cfg s) (hr : s.ctl.rest = []) : s.HeldBetween cfg := by
  intro r hm hd
  rcases h.kept r hm hd with h | ⟨ec, hec, -⟩ | h
  · exact .inl h
  · rw [hr] at hec; exact absurd hec (by simp)
  · exact .inr h

theorem St.HeldBetween.held (h : s.HeldBetween cfg) (ht : ∀ r, s.ctl ≠ .timeout r) (hio : ∀ rest, s.ctl ≠ .io rest) :
    Held cfg s :=
  ⟨fun r hm hd => (h r hm hd).imp_right .inr, fun r hc => absurd hc (ht r), fun rest hc => absurd hc (hio rest)⟩

theorem held_batch {pred : Reg → Bool} {ec : EventCall} {rest : List EventCall} {ctl : Ctl} {ph : Phase}
    (h : s.HeldBetween cfg) (hcol : Collected clock pred s (ec :: rest)) (hr : ctl.rest = rest)
    (ht : ∀ r, ctl ≠ .timeout r) (hio : ∀ rest, ctl = .io rest → ∀ x ∈ rest, cfg.isDepend x.reg.h = false) :
    Held cfg (s.batch pred ctl ec ph) := by
  refine ⟨fun r hm hd => ?_, fun r hc => absurd hc (ht r), hio⟩
  rcases h r hm hd with he | hdis
  · by_cases hp : pred r = true
    · have hmem : r ∈ (ec :: rest).map EventCall.reg := hcol.regs ▸ List.mem_filter.2 ⟨he, hp⟩
      obtain ⟨x, hx, hxr⟩ := List.mem_map.1 hmem
      rcases List.mem_cons.1 hx with rfl | hx
      · exact .inr (.inr (dispatched_of_log rfl hxr))
      · exact .inr (.inl ⟨x, by simp only [St.batch, hr]; exact hx, hxr⟩)
    · exact .inl (List.mem_filter.2 ⟨he, by simpa using hp⟩)
  · exact .inr (.inr (hdis.mono (List.prefix_append _ _)))

theorem held_depPhase (h : s.HeldBetween cfg) : Held cfg (depPhase cfg clock s) := by
  rcases depPhase_cases cfg clock s with ⟨-, he⟩ | ⟨ec, rest, hcol, he⟩ <;> rw [he]
  · exact St.HeldBetween.held h (by simp) (by simp)
  · exact held_batch h hcol rfl (by simp) (by simp)

theorem held_ioPhase {set : FdSets} (h : s.HeldBetween cfg) : Held cfg (ioPhase cfg clock set s) := by
  rcases ioPhase_cases cfg clock set s with ⟨-, he⟩ | ⟨ec, rest, hcol, he⟩ <;> rw [he]
  · exact held_depPhase h
  · refine held_batch h hcol rfl (by simp) fun rest' hr x hx => ?_
    cases hr
    exact activeFd_not_depend (hcol.mem (List.mem_cons_of_mem _ hx)).2

theorem held_next {ctl : Ctl} {ec : EventCall} {rest : List EventCall} {ph : Phase} (h : Held cfg s)
    (hr : s.ctl.rest = ec :: rest) (hr' : ctl.rest = rest) (ht : ∀ r, ctl ≠ .timeout r)
    (hio : ∀ rest, ctl = .io rest → ∀ x ∈ rest, cfg.isDepend x.reg.h = false) :
    Held cfg ({ s with ctl := ctl }.invoke ec.reg ec.t ph) := by
  refine ⟨fun r hm hd => ?_, fun r hc => absurd hc (ht r), hio⟩
  rcases h.kept r hm hd with he | ⟨x, hx, hxr⟩ | hdis
  · exact .inl he
  · rw [hr] at hx
    rcases List.mem_cons.1 hx with rfl | hx
    · exact .inr (.inr (dispatched_of_log rfl hxr))
    · exact .inr (.inl ⟨x, by simp only [St.invoke, hr']; exact hx, hxr⟩)
  · exact .inr (.inr (hdis.mono (List.prefix_append _ _)))

theorem held_step {i : Input} (h : Held cfg s) (ho : KeepsTriggers cfg s i) (hs : Step cfg clock s i s') :
    Held cfg s' := by
  cases hs with
  | returned hc | select hc | overflow hc | failed hc | retMain hc =>
    exact St.HeldBetween.held (h.between (by simp [hc, Ctl.rest])) (by simp) (by simp)
  | @timeout r rs call hc he =>
    have hb := h.between (by simp [hc, Ctl.rest])
    refine ⟨fun x hx hd => ?_, fun x hx => ?_, by simp [timeoutPhase, St.invoke]⟩
    · exact (hb x hx hd).imp_right fun hdis => .inr (hdis.mono (List.prefix_append _ _))
    · cases hx; exact dispatched_of_log (s := s) rfl rfl
  | ready set hc => exact held_ioPhase (h.between (by simp [hc, Ctl.rest]))
  | waitFor k t e d _ =>
    refine ⟨fun r hm hd => ?_, h.called, h.io⟩
    rcases List.mem_append.1 hm with hm | hm
    · exact (h.kept r hm hd).imp_left fun he => Multimap.mem_insert.2 (.inr he)
    · exact .inl (Multimap.mem_insert.2 (.inl (List.mem_singleton.1 hm)))
  | complied d _ _ => exact ⟨h.kept, h.called, h.io⟩
  | @retTimeout r hc =>
    apply held_depPhase
    intro x hx hd
    rcases h.between (by simp [hc, Ctl.rest]) x hx hd with he | hdis
    · -- the entry that is erased was called, or is not on a `DependHandle`
      simp only [KeepsTriggers, hc] at ho
      cases hl : s.eventList with
      | nil => rw [hl] at he; exact absurd he (by simp)
      | cons y ys =>
        rw [hl] at he ho
        rcases List.mem_cons.1 he with rfl | he
        · rcases ho x rfl with rfl | hy
          · exact .inr (h.called _ hc)
          · rw [hd] at hy; cases hy
        · exact .inl he
    · exact .inr hdis
  | retIo hc | retDep hc => exact held_depPhase (h.between (by simp [hc, Ctl.rest]))
  | @nextIo ec rest hc =>
    refine held_next h (by simp [hc, Ctl.rest]) rfl (by simp) fun rest' hr x hx => ?_
    cases hr
    exact h.io _ hc x (List.mem_cons_of_mem _ hx)
  | nextDep hc => exact held_next h (by simp [hc, Ctl.rest]) rfl (by simp) (by simp)

theorem held (h : Reaches cfg clock (KeepsTriggers cfg) s) : Held cfg s :=
  h.invariant (fun _ => ⟨by simp [St.init], by simp [St.init], by simp [St.init]⟩)
    fun _ _ _ hI ho hs => held_step hI ho hs

/-! ### A registration that was triggered -/

/-- From `complied` on: `r` waits in `eventList` and the coming dependency phase will find its
handle triggered, or it waits, `Ready`, in the batch of that phase, or it was called there. -/
inductive Due (r : Reg) (s : St) : Prop where
  | waiting (hm : r ∈ s.eventList) (htr : s.triggered r.h = true) (hcb : s.ctl.callback = true)
      (hne : s.ctl ≠ .timeout r) (hb : ∀ elist rest, s.ctl = .dep elist rest → ∀ ec ∈ elist, ec.reg.h ≠ r.h)
  | collected (elist rest : List EventCall) (hc : s.ctl = .dep elist rest) (hm : ∃ ec ∈ rest, ec.reg = r)
      (hst : s.status r.h = .ready)
  | called (h : s.Woken r)

theorem due_depPhase {r : Reg} (hm : r ∈ s.eventList) (htr : s.triggered r.h = true) (hd : cfg.isDepend r.h = true) :
    Due r (depPhase cfg clock s) := by
  have hp : r ∈ s.eventList.filter (activeDep cfg s.triggered) :=
    List.mem_filter.2 ⟨hm, by simp [activeDep, hd, htr]⟩
  rcases depPhase_cases cfg clock s with ⟨hnone, -⟩ | ⟨ec, rest, hcol, he⟩
  · rw [hnone] at hp; exact absurd hp (by simp)
  · rw [he]
    have hmem : r ∈ (ec :: rest).map EventCall.reg := hcol.regs ▸ hp
    obtain ⟨x, hx, hxr⟩ := List.mem_map.1 hmem
    rcases List.mem_cons.1 hx with rfl | hx
    · exact .called ⟨_, List.mem_append_right _ (List.mem_singleton_self _), hxr, rfl, rfl⟩
    · exact .collected _ _ rfl ⟨x, hx, hxr⟩ (if_pos ⟨r, hp, rfl⟩)

theorem due_waiting {r : Reg} {i : Input} (hd : cfg.isDepend r.h = true) (hm : r ∈ s.eventList)
    (htr : s.triggered r.h = true) (hcb : s.ctl.callback = true) (hne : s.ctl ≠ .timeout r)
    (hb : ∀ elist rest, s.ctl = .dep elist rest → ∀ ec ∈ elist, ec.reg.h ≠ r.h)
    (ho : KeepsTriggers cfg s i) (hs : Step cfg clock s i s') : Due r s' := by
  cases hs with
  | returned hc | select hc | overflow hc | timeout hc | ready _ hc | failed hc | retMain hc =>
    simp [hc, Ctl.callback] at hcb
  | waitFor k t e d _ => exact .waiting (Multimap.mem_insert.2 (.inr hm)) htr hcb hne hb
  | complied d _ _ =>
    refine .waiting hm ?_ hcb hne hb
    simp only [St.complied, Function.update_apply]
    split
    · rfl
    · exact htr
  | @retTimeout r' hc =>
    refine due_depPhase ?_ htr hd
    simp only [KeepsTriggers, hc] at ho
    cases hl : s.eventList with
    | nil => rw [hl] at hm; exact absurd hm (by simp)
    | cons y ys =>
      rw [hl] at hm ho
      rcases List.mem_cons.1 hm with rfl | hm
      · rcases ho r rfl with rfl | hy
        · exact absurd hc hne
        · rw [hd] at hy; cases hy
      · exact hm
  | retIo hc => exact due_depPhase hm htr hd
  | @retDep elist hc =>
    refine due_depPhase hm ?_ hd
    simp only [resetDepTrigger_apply]
    rw [if_neg (fun ⟨ec, hec, he⟩ => hb elist [] hc ec hec he)]
    exact htr
  | nextIo hc => exact .waiting hm htr rfl (by simp [St.invoke]) (by simp [St.invoke])
  | nextDep hc =>
    refine .waiting hm htr rfl (by simp [St.invoke]) fun elist' rest' hr => ?_
    cases hr
    exact hb _ _ hc

theorem due_collected {r : Reg} {i : Input} {elist rest : List EventCall} (hc : s.ctl = .dep elist rest)
    (hm : ∃ ec ∈ rest, ec.reg = r) (hst : s.status r.h = .ready)
    (ho : KeepsTriggers cfg s i) (hs : Step cfg clock s i s') : Due r s' := by
  obtain ⟨ec, hec, rfl⟩ := hm
  cases hs with
  | returned hc' | select hc' | overflow hc' | timeout hc' | ready _ hc' | failed hc' | retMain hc' | retTimeout hc'
  | retIo hc' | nextIo hc' =>
    rw [hc] at hc'; cases hc'
  | retDep hc' => rw [hc] at hc'; cases hc'; exact absurd hec (by simp)
  | waitFor k t e d _ =>
    simp only [KeepsTriggers, hc] at ho
    refine .collected _ _ hc ⟨ec, hec, rfl⟩ ?_
    simp only [St.waitFor, Function.update_of_ne (ho ec hec)]
    exact hst
  | complied d _ _ =>
    refine .collected _ _ hc ⟨ec, hec, rfl⟩ ?_
    simp only [St.complied, Function.update_apply]
    split
    · rfl
    · exact hst
  | nextDep hc' =>
    rw [hc] at hc'
    cases hc'
    rcases List.mem_cons.1 hec with rfl | hec
    · exact .called ⟨_, List.mem_append_right _ (List.mem_singleton_self _), rfl, hst, rfl⟩
    · exact .collected _ _ rfl ⟨ec, hec, rfl⟩ hst

theorem due_step {r : Reg} {i : Input} (hd : cfg.isDepend r.h = true) (h : Due r s) (ho : KeepsTriggers cfg s i)
    (hs : Step cfg clock s i s') : Due r s' := by
  cases h with
  | waiting hm htr hcb hne hb => exact due_waiting hd hm htr hcb hne hb ho hs
  | collected elist rest hc hm hst => exact due_collected hc hm hst ho hs
  | called h =>
    obtain ⟨inv, hm, hinv⟩ := h
    exact .called ⟨inv, hs.log.subset hm, hinv⟩

/-- `complied` makes a pending registration due. -/
theorem due_complied {r : Reg} (h : Held cfg s) (hcb : s.ctl.callback = true) (hd : cfg.isDepend r.h = true)
    (hp : s.Pending r) (ho : KeepsTriggers cfg s (.complied r.h)) : Due r (s.complied r.h) := by
  rcases h.kept r hp.1 hd with hm | ⟨ec, hec, rfl⟩ | hdis
  · refine .waiting hm (by simp [St.complied]) hcb (fun hc => hp.2 (h.called r hc)) fun elist rest hc ec hec he => ?_
    change s.ctl = .dep elist rest at hc
    simp only [KeepsTriggers, hc] at ho
    exact ho ⟨ec, hec, he⟩ r hm rfl
  · cases hc : s.ctl with
    | io rest =>
      rw [hc] at hec
      rw [h.io rest hc ec hec] at hd
      cases hd
    | dep elist rest => exact .collected elist rest hc ⟨ec, by rw [hc] at hec; exact hec, rfl⟩ (by simp [St.complied])
    | _ => rw [hc] at hec; exact absurd hec (by simp [Ctl.rest])
  · exact absurd hdis hp.2

/-- **No lost wake-up.** On a run whose steps keep the triggers, a registration that is pending when
a callback calls `complied` on its handle was called, `Ready`, in the dependency phase, by the time
the loop is back at its head. -/
theorem complied_wakes_up (cfg : Cfg) (clock : Nat → AbsTime) (s s' : St) (r : Reg)
    (hs : Reaches cfg clock (KeepsTriggers cfg) s) (hcb : s.ctl.callback = true) (hd : cfg.isDepend r.h = true)
    (hp : s.Pending r) (ho : KeepsTriggers cfg s (.complied r.h))
    (hs' : Lts.Reach (step cfg clock) (KeepsTriggers cfg) (s.complied r.h) s') (hc : s'.ctl = .loop) :
    s'.Woken r := by
  have hdue : Due r s' := hs'.invariant (due_complied (held hs) hcb hd hp ho)
    fun _ _ _ hI ho hs => due_step hd hI ho (step_cases hs)
  cases hdue with
  | waiting _ _ hcb => simp [hc, Ctl.callback] at hcb
  | collected _ _ hc' => rw [hc] at hc'; cases hc'
  | called h => exact h

/-- The `Blocker`'s callback calls `complied` on handle 1, whose callback is called. -/
def wakeRun : List Input :=
  [.waitFor 1 100 0 0, .waitFor 0 10 0 0, .ret, .enter, .wake .timeout]

/-- That callback registers again and calls `complied` again: the reset of the flag comes after it,
and the new registration waits for its deadline. -/
theorem second_wake_up_lost : ¬∀ cfg clock s s' r, Reaches cfg clock Lts.Any s → s.ctl.callback = true →
    cfg.isDepend r.h = true → s.Pending r → Lts.Reach (step cfg clock) Lts.Any (s.complied r.h) s' →
    s'.ctl = .loop → s'.Woken r := by
  intro h
  have hlost := h sampleCfg (fun _ => 10) _ _ ⟨2, 1, 100, 0, 0⟩
    (reaches_get 0 (wakeRun ++ [.complied 1, .ret, .waitFor 1 100 0 0]) (by decide)) (by decide) (by decide)
    (by decide) (.single (i := .ret) trivial (by rfl)) (by rfl)
  revert hlost
  decide

theorem complied_wakes_up_once :
    ((Lts.execOk (step sampleCfg fun _ => 10) (KeepsTriggers sampleCfg) (St.init 0)
      (wakeRun ++ [.complied 1, .ret, .ret])).get (by decide)).Woken ⟨0, 1, 100, 0, 0⟩ :=
  complied_wakes_up sampleCfg (fun _ => 10)
    ((Lts.execOk (step sampleCfg fun _ => 10) (KeepsTriggers sampleCfg) (St.init 0) wakeRun).get (by decide)) _ _
    (reaches_get 0 wakeRun (by decide)) (by decide) (by decide) (by decide) (by decide)
    (Lts.execOk_reach [.ret, .ret] (by rfl)) (by rfl)

end Posix
