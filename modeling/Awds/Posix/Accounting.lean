import Awds.Posix.Step

/-!
# No registration is lost, none is called twice

`St.Accounted`: the invoked registrations and the waiting ones, each once, are exactly those made.
It holds as long as a callback called by the timeout branch does not register a deadline before its
own (`NotBeforeOwn`, `accounted`). That branch erases `eventList.begin()` after the callback (:284),
and an earlier deadline puts another entry there: `early_deadline_lost` is a run on which the new
registration is erased uncalled and the old one is called again.
-/

namespace Posix

open Gea

/-- The registrations whose callback was called, in order. -/
def St.invoked (s : St) : List Nat := s.log.map (·.reg.id)

/-- The registrations still to be called: the entries of `eventList`, without the one whose
callback the timeout branch is running, and the rest of a collected batch. -/
def St.waiting (s : St) : List Nat :=
  match s.ctl with
  | .timeout r => (s.eventList.map Reg.id).erase r.id
  | ctl => s.eventList.map Reg.id ++ ctl.rest.map (·.reg.id)

/-- Every registration made was called once and is gone, or is waiting and was not called. -/
def St.Accounted (s : St) : Prop := (s.invoked ++ s.waiting).Perm (List.range s.made)

instance (s : St) : Decidable s.Accounted := inferInstanceAs (Decidable (List.Perm _ _))

/-- A callback called by the timeout branch registers no deadline before its own. -/
def NotBeforeOwn (s : St) : Input → Prop
  | .waitFor _ t _ _ => match s.ctl with
    | .timeout r => r.timeout ≤ t
    | _ => True
  | _ => True

instance (s : St) : (i : Input) → Decidable (NotBeforeOwn s i)
  | .waitFor _ t _ _ => match hc : s.ctl with
    | .timeout r => decidable_of_iff (r.timeout ≤ t) (by simp only [NotBeforeOwn, hc])
    | .main | .loop | .select _ | .io _ | .dep _ _ | .returned | .aborted => isTrue (by simp only [NotBeforeOwn, hc])
  | .enter | .wake _ | .complied _ | .ret => isTrue trivial

theorem NotBeforeOwn.le {s : St} {h : Handle} {t : AbsTime} {e : Event} {d : Data} {r : Reg}
    (ho : NotBeforeOwn s (.waitFor h t e d)) (hc : s.ctl = .timeout r) : r.timeout ≤ t := by
  simpa [NotBeforeOwn, hc] using ho

variable {cfg : Cfg} {clock : Nat → AbsTime}

/-- The accounting between two callbacks, before the next phase of the loop. -/
def St.Settled (s : St) : Prop := (s.invoked ++ s.eventList.map Reg.id).Perm (List.range s.made)

/-- The invariant: accounting, and the entry the timeout branch will erase is the one it called. -/
structure Inv (s : St) : Prop where
  accounted : s.Accounted
  front : ∀ r, s.ctl = .timeout r → r.id ∈ s.invoked ∧ ∃ rs, s.eventList = r :: rs

theorem Inv.of_settled {s : St} (h : s.Settled) (hr : s.ctl.rest = []) (ht : ∀ r, s.ctl ≠ .timeout r) :
    Inv s := by
  refine ⟨?_, fun r hc => absurd hc (ht r)⟩
  have : s.waiting = s.eventList.map Reg.id := by
    unfold St.waiting
    split
    · rename_i r hc; exact absurd hc (ht r)
    · rw [hr]; simp
  rw [St.Accounted, this]
  exact h

theorem Inv.settled {s : St} (h : Inv s) (hr : s.ctl.rest = []) (ht : ∀ r, s.ctl ≠ .timeout r) :
    s.Settled := by
  have hw : s.waiting = s.eventList.map Reg.id := by
    unfold St.waiting
    split
    · rename_i r hc; exact absurd hc (ht r)
    · rw [hr]; simp
  have := h.accounted
  rwa [St.Accounted, hw] at this

/-- Collecting a batch and calling its first callback: the batch moves from `eventList` to the
`EventCall`s to be called, and no entry is lost or doubled on the way. -/
theorem perm_batch {pred : Reg → Bool} {s : St} {ec : EventCall} {rest : List EventCall} {ctl : Ctl} {ph : Phase}
    (hcol : Collected clock pred s (ec :: rest)) (hr : ctl.rest = rest) (ht : ∀ r, ctl ≠ .timeout r) :
    ((s.batch pred ctl ec ph).invoked ++ (s.batch pred ctl ec ph).waiting).Perm
      (s.invoked ++ s.eventList.map Reg.id) := by
  have hw : (s.batch pred ctl ec ph).waiting =
      (s.eventList.filter (!pred ·)).map Reg.id ++ rest.map (·.reg.id) := by
    unfold St.waiting
    split
    · rename_i r hc; exact absurd hc (ht r)
    · simp [St.batch, hr]
  have hids : ec.reg.id :: rest.map (·.reg.id) = (s.eventList.filter pred).map Reg.id := by
    rw [← hcol.regs]; simp
  have hsplit : ((s.eventList.filter pred).map Reg.id ++ (s.eventList.filter (!pred ·)).map Reg.id).Perm
      (s.eventList.map Reg.id) := by
    rw [← List.map_append]; exact (List.filter_append_perm pred _).map _
  have hinv : (s.batch pred ctl ec ph).invoked = s.invoked ++ [ec.reg.id] := by simp [St.invoked, St.batch]
  rw [← hids] at hsplit
  rw [hw, hinv, List.append_assoc]
  refine List.Perm.append_left _ (List.Perm.trans ?_ hsplit)
  have hcomm : ((s.eventList.filter (!pred ·)).map Reg.id ++ rest.map (·.reg.id)).Perm
      (rest.map (·.reg.id) ++ (s.eventList.filter (!pred ·)).map Reg.id) := List.perm_append_comm
  exact hcomm.cons ec.reg.id

theorem perm_depPhase (cfg : Cfg) (clock : Nat → AbsTime) (s : St) :
    ((depPhase cfg clock s).invoked ++ (depPhase cfg clock s).waiting).Perm (s.invoked ++ s.eventList.map Reg.id) ∧
      (depPhase cfg clock s).made = s.made ∧ ∀ r, (depPhase cfg clock s).ctl ≠ .timeout r := by
  rcases depPhase_cases cfg clock s with ⟨_, he⟩ | ⟨ec, rest, hcol, he⟩
  · rw [he]; exact ⟨by simp [St.invoked, St.waiting, Ctl.rest], rfl, by simp⟩
  · rw [he]; exact ⟨perm_batch hcol rfl (by simp), rfl, by simp [St.batch]⟩

theorem inv_depPhase {s : St} (h : s.Settled) : Inv (depPhase cfg clock s) := by
  obtain ⟨hp, hm, ht⟩ := perm_depPhase cfg clock s
  refine ⟨?_, fun r hc => absurd hc (ht r)⟩
  rw [St.Accounted, hm]
  exact hp.trans h

theorem inv_ioPhase {s : St} {set : FdSets} (h : s.Settled) : Inv (ioPhase cfg clock set s) := by
  rcases ioPhase_cases cfg clock set s with ⟨_, he⟩ | ⟨ec, rest, hcol, he⟩
  · rw [he]; exact inv_depPhase h
  · rw [he]; exact ⟨(perm_batch hcol rfl (by simp)).trans h, by simp [St.batch]⟩

/-- A new registration waits, whoever makes it. -/
theorem inv_waitFor {s : St} {k : Handle} {t : AbsTime} {e : Event} {d : Data} (h : Inv s)
    (ho : NotBeforeOwn s (.waitFor k t e d)) : Inv (s.waitFor k t e d) := by
  have hperm := Multimap.insert_perm Reg.timeout ⟨s.made, k, t, e, d⟩ s.eventList
  have key : (s.waitFor k t e d).waiting.Perm (s.made :: s.waiting) ∧
      ∀ r, s.ctl = .timeout r → r.id ∈ s.invoked ∧ ∃ rs, (s.waitFor k t e d).eventList = r :: rs := by
    unfold St.waiting
    simp only [St.waitFor]
    split
    · rename_i r hc
      obtain ⟨hcalled, rs, hrs⟩ := h.front r hc
      have hins : Multimap.insert Reg.timeout ⟨s.made, k, t, e, d⟩ s.eventList =
          r :: Multimap.insert Reg.timeout ⟨s.made, k, t, e, d⟩ rs := by
        rw [hrs]; exact Multimap.insert_cons_of_le rs (ho.le hc)
      refine ⟨?_, fun r' hr' => ?_⟩
      · rw [hins, hrs, List.map_cons, List.map_cons, List.erase_cons_head, List.erase_cons_head]
        exact (Multimap.insert_perm _ _ rs).map Reg.id
      · rw [hc] at hr'; cases hr'; exact ⟨hcalled, _, hins⟩
    · rename_i hc
      exact ⟨(hperm.map Reg.id).append_right _, fun r hr => absurd hr (hc r)⟩
  refine ⟨?_, fun r hc => key.2 r hc⟩
  have hmade : (s.waitFor k t e d).made = s.made + 1 := by simp [St.made, St.waitFor]
  have hinv : (s.waitFor k t e d).invoked = s.invoked := rfl
  rw [St.Accounted, hinv, hmade, List.range_succ]
  calc (s.invoked ++ (s.waitFor k t e d).waiting).Perm (s.invoked ++ s.made :: s.waiting) := key.1.append_left _
    _ |>.Perm (s.made :: (s.invoked ++ s.waiting)) := List.perm_middle
    _ |>.Perm (s.made :: List.range s.made) := h.accounted.cons _
    _ |>.Perm (List.range s.made ++ [s.made]) := (List.perm_append_singleton _ _).symm

/-- The next callback of a batch. -/
theorem inv_next {s : St} {ctl : Ctl} {ec : EventCall} {rest : List EventCall} {ph : Phase} (h : Inv s)
    (hr : s.ctl.rest = ec :: rest) (hr' : ctl.rest = rest) (ht : ∀ r, s.ctl ≠ .timeout r)
    (ht' : ∀ r, ctl ≠ .timeout r) : Inv ({ s with ctl := ctl }.invoke ec.reg ec.t ph) := by
  refine ⟨?_, fun r hc => absurd hc (ht' r)⟩
  have hw : s.waiting = s.eventList.map Reg.id ++ (ec :: rest).map (·.reg.id) := by
    unfold St.waiting
    split
    · rename_i r hc; exact absurd hc (ht r)
    · rw [hr]
  have hw' : ({ s with ctl := ctl }.invoke ec.reg ec.t ph).waiting =
      s.eventList.map Reg.id ++ rest.map (·.reg.id) := by
    unfold St.waiting
    split
    · rename_i r hc; exact absurd hc (ht' r)
    · simp only [St.invoke, hr']
  have hinv : ({ s with ctl := ctl }.invoke ec.reg ec.t ph).invoked = s.invoked ++ [ec.reg.id] := by
    simp [St.invoked, St.invoke]
  have hacc := h.accounted
  rw [St.Accounted, hw] at hacc
  rw [St.Accounted, hinv, hw', List.append_assoc]
  refine List.Perm.trans (List.Perm.append_left _ ?_) hacc
  have hmid : (s.eventList.map Reg.id ++ ec.reg.id :: rest.map (·.reg.id)).Perm
      (ec.reg.id :: (s.eventList.map Reg.id ++ rest.map (·.reg.id))) := List.perm_middle
  exact hmid.symm

theorem inv_step {s s' : St} {i : Input} (h : Inv s) (ho : NotBeforeOwn s i) (hs : Step cfg clock s i s') :
    Inv s' := by
  cases hs with
  | returned hc _ => exact .of_settled (h.settled (by simp [hc, Ctl.rest]) (by simp [hc])) rfl (by simp)
  | select hc | overflow hc | failed hc =>
    exact .of_settled (h.settled (by simp [hc, Ctl.rest]) (by simp [hc])) rfl (by simp)
  | @timeout r rs call hc he =>
    have hset := h.settled (by simp [hc, Ctl.rest]) (by simp [hc])
    refine ⟨?_, fun r' hr' => ?_⟩
    · have hw : (timeoutPhase s r).waiting = rs.map Reg.id := by
        simp only [St.waiting, timeoutPhase, St.invoke, he, List.map_cons, List.erase_cons_head]
      have hinv : (timeoutPhase s r).invoked = s.invoked ++ [r.id] := by simp [St.invoked, timeoutPhase, St.invoke]
      rw [St.Settled, he, List.map_cons] at hset
      rw [St.Accounted, hw, hinv, List.append_assoc]
      exact hset
    · cases hr'; exact ⟨by simp [St.invoked, timeoutPhase, St.invoke], rs, he⟩
  | ready set hc => exact inv_ioPhase (h.settled (by simp [hc, Ctl.rest]) (by simp [hc]))
  | waitFor k t e d _ => exact inv_waitFor h ho
  | complied d _ _ => exact ⟨h.accounted, h.front⟩
  | retMain hc => exact .of_settled (h.settled (by simp [hc, Ctl.rest]) (by simp [hc])) rfl (by simp)
  | @retTimeout r hc =>
    obtain ⟨-, rs, hrs⟩ := h.front r hc
    apply inv_depPhase
    have hacc := h.accounted
    simp only [St.Accounted, St.waiting, hc, hrs, List.map_cons, List.erase_cons_head] at hacc
    simpa [St.Settled, St.invoked, hrs] using hacc
  | retIo hc => exact inv_depPhase (h.settled (by simp [hc, Ctl.rest]) (by simp [hc]))
  | nextIo hc => exact inv_next h (by simp [hc, Ctl.rest]) rfl (by simp [hc]) (by simp)
  | retDep hc =>
    have hset := h.settled (by simp [hc, Ctl.rest]) (by simp [hc])
    exact inv_depPhase hset
  | nextDep hc => exact inv_next h (by simp [hc, Ctl.rest]) rfl (by simp [hc]) (by simp)

theorem inv_init (t0 : AbsTime) : Inv (St.init t0) :=
  ⟨by simp [St.Accounted, St.invoked, St.waiting, St.init, Ctl.rest], by simp [St.init]⟩

/-- On every run whose timeout callbacks register no deadline before their own, each registration
was called exactly once and left `eventList`, or it waits and was not called. -/
theorem accounted {s : St} (h : Reaches cfg clock NotBeforeOwn s) : Inv s :=
  h.invariant inv_init fun _ _ _ hI ho hs => inv_step hI ho hs

/-! ### An earlier deadline -/

/-- Something a running callback does: `waitFor` or `complied`. -/
def Input.action : Input → Prop
  | .waitFor _ _ _ _ | .complied _ => True
  | _ => False

/-- The entry the timeout branch will erase is not the one whose callback it runs. -/
def OtherFront (r : Reg) (s : St) : Prop :=
  s.ctl = .timeout r ∧ r.id ∈ s.invoked ∧ ∃ y ys, s.eventList = y :: ys ∧ y.timeout < r.timeout ∧ r ∈ ys

theorem otherFront_action {r : Reg} {s s' : St} {i : Input} (h : OtherFront r s) (ha : i.action)
    (hs : Step cfg clock s i s') : OtherFront r s' := by
  obtain ⟨hc, hi, y, ys, he, hlt, hm⟩ := h
  cases hs with
  | waitFor k t e d _ =>
    refine ⟨hc, hi, ?_⟩
    by_cases hty : t < y.timeout
    · exact ⟨_, y :: ys, by simp only [St.waitFor]; rw [he, Multimap.insert_cons_of_lt ys hty],
        lt_trans hty hlt, List.mem_cons_of_mem _ hm⟩
    · exact ⟨y, _, by simp only [St.waitFor]; rw [he, Multimap.insert_cons_of_le ys (not_lt.1 hty)],
        hlt, Multimap.mem_insert.2 (.inr hm)⟩
  | complied d _ _ => exact ⟨hc, hi, y, ys, he, hlt, hm⟩
  | _ => exact ha.elim

/-- The erased entry is another one: `r`, called already, stays in `eventList`. -/
theorem otherFront_ret {r : Reg} {s s' : St} (h : OtherFront r s) (hs : step cfg clock s .ret = some s') :
    ¬s'.Accounted := by
  obtain ⟨hc, hi, y, ys, he, -, hm⟩ := h
  have hs : depPhase cfg clock { s with eventList := s.eventList.tail } = s' := by
    simp only [step, ret] at hs
    split at hs <;> simp_all
  obtain ⟨hp, hmade, -⟩ := perm_depPhase cfg clock { s with eventList := s.eventList.tail }
  rw [hs] at hp hmade
  intro hacc
  have hperm : (s.invoked ++ ys.map Reg.id).Perm (List.range s.made) := by
    have := hp.symm.trans hacc
    simpa [he, hmade, St.invoked] using this
  have hnd : (s.invoked ++ ys.map Reg.id).Nodup := hperm.nodup_iff.2 List.nodup_range
  exact (List.nodup_append.1 hnd).2.2 _ hi _ (List.mem_map_of_mem hm) rfl

/-- **No lost and no duplicated event, exactly when.** While the timeout callbacks of a run register
no deadline before their own, every registration is accounted for. The first one that does leaves,
when it returns, a state in which one is not. -/
theorem accounted_exactly (cfg : Cfg) (clock : Nat → AbsTime) :
    (∀ s, Reaches cfg clock NotBeforeOwn s → s.Accounted) ∧
    (∀ s s₂ s₃ r k t e d, Reaches cfg clock NotBeforeOwn s → s.ctl = .timeout r → t < r.timeout →
      Lts.Reach (step cfg clock) (fun _ i => i.action) (s.waitFor k t e d) s₂ →
      step cfg clock s₂ .ret = some s₃ → ¬s₃.Accounted) := by
  refine ⟨fun s h => (accounted h).accounted, fun s s₂ s₃ r k t e d h hc ht hacts hret => ?_⟩
  obtain ⟨hcalled, rs, hrs⟩ := (accounted h).front r hc
  have h0 : OtherFront r (s.waitFor k t e d) :=
    ⟨hc, hcalled, _, r :: rs, by simp only [St.waitFor]; rw [hrs, Multimap.insert_cons_of_lt rs ht], ht, by simp⟩
  have h2 : OtherFront r s₂ := hacts.invariant h0 fun _ _ _ hI ha hs => otherFront_action hI ha (step_cases hs)
  exact otherFront_ret h2 hret

/-- A timer due at 10 whose callback registers one due at 5: the new entry is erased in its place. -/
def earlyRun : List Input :=
  [.waitFor 0 10 0 0, .ret, .enter, .wake .timeout, .waitFor 0 5 0 0, .ret]

theorem early_deadline_lost : ¬∀ cfg clock s, Reaches cfg clock Lts.Any s → s.Accounted := by
  intro h
  have hlost := h sampleCfg (fun _ => 10) _ (reaches_get 0 earlyRun (by decide))
  revert hlost
  decide

/-- `periodic.cc`: the callback registers its own next deadline. -/
def periodicRun : List Input := [.waitFor 0 10 0 0, .ret, .enter, .wake .timeout]

theorem accounted_exactly_periodic :
    ((Lts.execOk (step sampleCfg fun _ => 10) NotBeforeOwn (St.init 0)
        (periodicRun ++ [.waitFor 0 20 0 0, .ret])).get (by decide)).Accounted ∧
      ∀ s, step sampleCfg (fun _ => 10)
        (((Lts.execOk (step sampleCfg fun _ => 10) NotBeforeOwn (St.init 0) periodicRun).get (by decide)).waitFor
          0 5 0 0) .ret = some s → ¬s.Accounted :=
  ⟨(accounted_exactly sampleCfg fun _ => 10).1 _ (reaches_get 0 _ (by decide)),
    fun s hs => (accounted_exactly sampleCfg fun _ => 10).2 _ _ s ⟨0, 0, 10, 0, 0⟩ 0 5 0 0
      (reaches_get 0 periodicRun (by decide)) (by rfl) (by decide) .refl hs⟩

end Posix
