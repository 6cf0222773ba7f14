import Awds.Gea.Twin
import Awds.Posix.Fd

/-!
# The two backends agree

README: a protocol written for POSIX can be run "in the ns-2 network simulator" unchanged. The two
backends take the triggered `DependHandle`s in different orders (POSIX that of `eventList`, ns-2 that
of the calls of `complied`), keep a trigger in different ways (a latch on POSIX; on ns-2 `complied`
does nothing unless the handle is `Blocked`), and drain what is triggered in different places.
`backends_agree`: as long as the program does not look at these differences (`Orderly`) they call the
same callbacks, in the same order, with the same time.
-/

namespace Posix

open Gea

/-- The running dependency batch. -/
def Ctl.elist : Ctl → List EventCall
  | .dep elist _ => elist
  | _ => []

/-- The entries of `eventList` whose callback was not called: the front one is erased behind its
callback (:284). -/
def St.live (s : St) : List Reg :=
  match s.ctl with
  | .timeout _ => s.eventList.tail
  | _ => s.eventList

/-- The triggers that are set behind the running batch. -/
def St.armed (s : St) : Handle → Bool := resetDepTrigger s.ctl.elist s.triggered

def St.InBatch (s : St) (d : Handle) : Prop := ∃ ec ∈ s.ctl.elist, ec.reg.h = d

instance (s : St) (d : Handle) : Decidable (s.InBatch d) := inferInstanceAs (Decidable (∃ ec ∈ _, _))

/-- The ns-2 backend drains `pendingList` behind the running callback, or before the next event. -/
def Ctl.Drained (dep : Handle → Bool) : Ctl → Prop
  | .timeout r => dep r.h = false
  | _ => True

instance (dep : Handle → Bool) : (c : Ctl) → Decidable (c.Drained dep)
  | .timeout r => inferInstanceAs (Decidable (dep r.h = false))
  | .main | .loop | .select _ | .io _ | .dep _ _ | .returned | .aborted => isTrue trivial

instance (live : List Reg) (armed : Handle → Bool) (d : Handle) : Decidable (Last live armed d) :=
  inferInstanceAs (Decidable (∀ r ∈ _, _))

/-- A call of `complied(d)`, from elsewhere than the callback of a `DependHandle` that timed out:
- `d` is triggered already, or called in the running batch and not registered again;
- or `d` is registered, not in the running batch, and no entry behind it in `eventList` is triggered. -/
def Complies (dep : Handle → Bool) (s : St) (d : Handle) : Prop :=
  s.ctl.Drained dep ∧
    (s.armed d = true ∨ (s.InBatch d ∧ ∀ r ∈ s.live, r.h ≠ d) ∨
      (¬s.InBatch d ∧ (∃ r ∈ s.live, r.h = d) ∧ Last s.live s.armed d))

instance (dep : Handle → Bool) (s : St) (d : Handle) : Decidable (Complies dep s d) :=
  inferInstanceAs (Decidable (_ ∧ (_ ∨ _ ∨ _)))

/-- `gea_main` leaves a trigger behind only if a `Blocker`'s deadline comes first. -/
def Leaves (dep : Handle → Bool) (s : St) : Prop :=
  match s.ctl with
  | .main => ∀ r ∈ s.eventList.head?, dep r.h = true → ∀ y ∈ s.eventList, s.armed y.h = false
  | _ => True

instance (dep : Handle → Bool) (s : St) : Decidable (Leaves dep s) :=
  match hc : s.ctl with
  | .main => decidable_of_iff (∀ r ∈ s.eventList.head?, dep r.h = true → ∀ y ∈ s.eventList, s.armed y.h = false)
      (by simp only [Leaves, hc])
  | .timeout _ | .loop | .select _ | .io _ | .dep _ _ | .returned | .aborted => isTrue (by simp only [Leaves, hc])

/-- What the running user code does next is `Complies` or `Leaves`. -/
def OrderlyAct (dep : Handle → Bool) (s : St) : Option Act → Prop
  | some (.waitFor _ _ _ _) => True
  | some (.complied d) => Complies dep s d
  | none => Leaves dep s

instance (dep : Handle → Bool) (s : St) : (a : Option Act) → Decidable (OrderlyAct dep s a)
  | some (.waitFor _ _ _ _) => isTrue trivial
  | some (.complied d) => inferInstanceAs (Decidable (Complies dep s d))
  | none => inferInstanceAs (Decidable (Leaves dep s))

def Ideal.Orderly {σ : Type*} (P : Program σ) (dep : Handle → Bool) (x : Ideal σ) : Prop :=
  x.st.ctl.user = true → OrderlyAct dep x.st (x.act P).2

instance {σ : Type*} (P : Program σ) (dep : Handle → Bool) (x : Ideal σ) : Decidable (x.Orderly P dep) :=
  inferInstanceAs (Decidable (_ → _))

theorem armed_apply (s : St) (h : Handle) : s.armed h = if s.InBatch h then false else s.triggered h :=
  resetDepTrigger_apply s.ctl.elist s.triggered h

/-- For the handles of the running batch the latch will be reset. -/
theorem armed_complied_inBatch {s : St} {d : Handle} (hb : s.InBatch d) : (s.complied d).armed = s.armed := by
  funext h
  rw [armed_apply, armed_apply]
  by_cases he : h = d
  · subst he
    rw [if_pos hb, if_pos (show (s.complied h).InBatch h from hb)]
  · simp only [St.complied, Function.update_of_ne he]
    rfl

theorem armed_complied {s : St} {d : Handle} (hb : ¬s.InBatch d) :
    (s.complied d).armed = Function.update s.armed d true := by
  funext h
  rw [armed_apply]
  by_cases he : h = d
  · subst he
    rw [if_neg (show ¬(s.complied h).InBatch h from hb)]
    simp [St.complied]
  · rw [Function.update_of_ne he, armed_apply]
    simp only [St.complied, Function.update_of_ne he]
    rfl

end Posix

namespace Gea

open Posix (St)

variable {σ : Type*} {dep : Handle → Bool} {now : AbsTime} {p p' : Posix.St} {n n' : Ns2.St}

/-- The same piece of user code is running on both sides, or the POSIX loop is at its head and the
ns-2 scheduler takes the next event. -/
inductive Stacked (dep : Handle → Bool) (now : AbsTime) (p : Posix.St) (n : Ns2.St) : Prop where
  | main (hc : p.ctl = .main) (hs : n.stack = [.main])
  | loop (hc : p.ctl = .loop) (hs : n.stack = [])
      (hf : ∀ r ∈ p.eventList.head?, dep r.h = true → ∀ d, p.armed d = false)
  | returned (hc : p.ctl = .returned) (hs : n.stack = []) (he : p.eventList = [])
  | timeout (r : Reg) (l : List Reg) (hc : p.ctl = .timeout r) (he : p.eventList = r :: l) (ht : r.timeout = now)
      (hs : n.stack = [.cb r, if dep r.h then .timer r.h else .pend now []])
      (hf : dep r.h = true → ∀ d, p.armed d = false)
  | dep (elist rest : List Posix.EventCall) (r : Reg) (todo : List Ns2.EventDescr) (hc : p.ctl = .dep elist rest)
      (hs : n.stack = [.cb r, .pend now todo]) (ht : todo.map Ns2.EventDescr.reg = rest.map Posix.EventCall.reg)
      (hn : ∀ ec ∈ rest, ec.t = now) (hd : ∀ ec ∈ elist, dep ec.reg.h = true ∧ ec.reg ∈ p.regs)
      (hr : ∀ ec ∈ elist, (∀ x ∈ p.eventList, x.h ≠ ec.reg.h) → p.status ec.reg.h = .ready)

/-- `Twin`, for the parts of `p`. -/
abbrev Pair (dep : Handle → Bool) (now : AbsTime) (p : Posix.St) (n : Ns2.St) : Prop :=
  Twin dep p.live (p.ctl.rest.map Posix.EventCall.reg) p.armed now p n ∧ Stacked dep now p n

/-! ## Behind the return of a callback -/

theorem activeDep_handles (tr : Handle → Bool) (r : Reg) :
    Posix.activeDep (Posix.handles dep) tr r = (dep r.h && tr r.h) := by
  simp only [Posix.activeDep, Posix.Cfg.isDepend, Posix.handles]
  cases dep r.h <;> rfl

section
variable {armed : Handle → Bool} {live : List Reg}

/-- Only `DependHandle`s are armed. -/
theorem Twin.activeDep (hT : Twin dep live [] armed now p n) (r : Reg) :
    Posix.activeDep (Posix.handles dep) armed r = armed r.h := by
  rw [activeDep_handles]
  cases ha : armed r.h with
  | true => rw [(hT.book.latched _ ha).1]; rfl
  | false => rw [Bool.and_false]

theorem Twin.active (hT : Twin dep live [] armed now p n) :
    live.filter (Posix.activeDep (Posix.handles dep) armed) = live.filter fun r => armed r.h :=
  List.filter_congr fun r _ => hT.activeDep r

theorem Twin.ready (hT : Twin dep live [] armed now p n) {r : Reg} (hr : r ∈ live.filter fun r => armed r.h) :
    dep r.h = true ∧ p.status r.h = .ready := by
  obtain ⟨hm, ha⟩ := List.mem_filter.1 hr
  have hd := (hT.book.latched _ ha).1
  exact ⟨hd, by rw [hT.book.status r hm hd, if_pos ha]⟩

/-- Nothing is armed for an entry, so nothing is armed. -/
theorem Twin.unarmed (hT : Twin dep live [] armed now p n) (hn : ∀ r ∈ live, armed r.h = false) (d : Handle) :
    armed d = false := by
  by_contra ha
  have ha : armed d = true := by simpa using ha
  obtain ⟨-, r, hr, rfl⟩ := hT.book.latched d ha
  rw [hn r hr] at ha
  cases ha

end

/-- The handles of a collected batch were `Ready` already. -/
theorem Twin.batch_status (hT : Twin dep p.eventList [] p.triggered now p n) (ctl : Posix.Ctl) (ec : Posix.EventCall) :
    (p.batch (Posix.activeDep (Posix.handles dep) p.triggered) ctl ec .dep).status = p.status := by
  funext h
  simp only [St.batch]
  split
  · rename_i hx
    obtain ⟨r, hr, rfl⟩ := hx
    rw [hT.active] at hr
    exact (hT.ready hr).2.symm
  · rfl

/-- All triggers are reset behind the batch they were collected for. -/
theorem Twin.batch_armed (hT : Twin dep p.eventList [] p.triggered now p n) {ec : Posix.EventCall}
    {elist rest : List Posix.EventCall}
    (hb : elist.map Posix.EventCall.reg = p.eventList.filter fun r => p.triggered r.h) :
    (p.batch (Posix.activeDep (Posix.handles dep) p.triggered) (.dep elist rest) ec .dep).armed = fun _ => false := by
  funext h
  rw [Posix.armed_apply]
  split
  · rfl
  · rename_i hn
    by_contra ha
    have ha : p.triggered h = true := by simpa [St.batch] using ha
    obtain ⟨-, r, hr, rfl⟩ := hT.book.latched h ha
    have hm : r ∈ elist.map Posix.EventCall.reg := hb ▸ List.mem_filter.2 ⟨hr, ha⟩
    obtain ⟨x, hx, hxr⟩ := List.mem_map.1 hm
    exact hn ⟨x, hx, hxr ▸ rfl⟩

/-- A batch is collected, and its first callback called. -/
theorem Twin.batch (hT : Twin dep p.eventList [] p.triggered now p n) {ec : Posix.EventCall}
    {rest : List Posix.EventCall} {e : Ns2.EventDescr} {todo : List Ns2.EventDescr}
    (hcol : Posix.Collected (fun _ => now) (Posix.activeDep (Posix.handles dep) p.triggered) p (ec :: rest))
    (hl : n.pendingList = e :: todo) :
    Pair dep now (p.batch (Posix.activeDep (Posix.handles dep) p.triggered) (.dep (ec :: rest) rest) ec .dep)
      (Ns2.runPending { n with pendingList := [] } now e [.pend now todo]) := by
  have hb : (ec :: rest).map Posix.EventCall.reg = p.eventList.filter fun r => p.triggered r.h :=
    hcol.regs.trans hT.active
  have hpend := hT.pending
  rw [hl, ← hb, List.map_cons, List.map_cons, List.cons.injEq] at hpend
  obtain ⟨hreg, htodo⟩ := hpend
  have htime : ∀ x ∈ ec :: rest, x.t = now := by
    intro x hx
    obtain ⟨-, -, ht⟩ := hcol.time hx
    exact ht
  have hready : ∀ x ∈ ec :: rest, dep x.reg.h = true ∧ p.status x.reg.h = .ready := fun x hx =>
    hT.ready (hb ▸ List.mem_map_of_mem hx)
  have hregs : ∀ x ∈ ec :: rest, x.reg ∈ p.regs := fun x hx =>
    (hT.book.pending x.reg (List.mem_append_left _ (hcol.mem hx).1)).1
  have hlive : p.eventList.filter (fun r => !Posix.activeDep (Posix.handles dep) p.triggered r) =
      p.eventList.filter fun r => !p.triggered r.h :=
    List.filter_congr fun r _ => congrArg _ (hT.activeDep r)
  have hcollect := hT.collect
  rw [← hb, List.map_cons, ← hreg] at hcollect
  obtain ⟨htwin, hstack⟩ := hcollect.run _ (hT.batch_status (.dep (ec :: rest) rest) ec) rfl
    (htime ec List.mem_cons_self) (by simp [St.calls, St.batch, hreg, htime ec List.mem_cons_self]) [.pend now todo]
  refine ⟨?_, .dep (ec :: rest) rest e.reg todo rfl hstack htodo (fun x hx => htime x (List.mem_cons_of_mem _ hx))
    (fun x hx => ⟨(hready x hx).1, hregs x hx⟩) fun x hx _ => ?_⟩
  · rw [hT.batch_armed hb]
    have hl : (p.batch (Posix.activeDep (Posix.handles dep) p.triggered) (.dep (ec :: rest) rest) ec .dep).live =
        p.eventList.filter fun r => !p.triggered r.h := hlive
    rw [hl]
    exact htwin
  · rw [hT.batch_status]
    exact (hready x hx).2

/-- **The dependency phase and `doPendingEvents`.** Nothing is triggered and both go on to the next
deadline, or both call the first callback of the same batch. -/
theorem drain (hT : Twin dep p.eventList [] p.triggered now p n) :
    Pair dep now (Posix.depPhase (Posix.handles dep) (fun _ => now) p) (Ns2.resume [.pend now []] n) := by
  have hpend := hT.pending
  rw [← hT.active] at hpend
  rcases Posix.depPhase_cases (Posix.handles dep) (fun _ => now) p with ⟨hnil, he⟩ | ⟨ec, rest, hcol, he⟩
  · rw [hnil, List.map_eq_nil_iff] at hpend
    have hresume : Ns2.resume [.pend now []] n = { n with stack := [] } := by
      simp only [Ns2.resume, Ns2.doPendingEvents, hpend]
    rw [he, hresume]
    refine ⟨hT.congr { p with ctl := .loop } rfl rfl rfl rfl [], .loop rfl rfl fun _ _ _ => hT.unarmed fun r hr => ?_⟩
    rw [hT.active] at hnil
    simpa using List.filter_eq_nil_iff.1 hnil r hr
  · obtain ⟨e, todo, hl⟩ : ∃ e todo, n.pendingList = e :: todo := by
      rw [← hcol.regs, List.map_cons, List.map_eq_cons_iff] at hpend
      obtain ⟨e, todo, hl, -⟩ := hpend
      exact ⟨e, todo, hl⟩
    have hresume : Ns2.resume [.pend now []] n =
        Ns2.runPending { n with pendingList := [] } now e [.pend now todo] := by
      simp only [Ns2.resume, Ns2.doPendingEvents, hl]
    rw [he, hresume]
    exact hT.batch hcol hl

/-! ## What user code does -/

theorem Stacked.live_waitFor (hS : Stacked dep now p n) {h : Handle} {t : AbsTime} {e : Event} {data : Data}
    (ht : now ≤ t) : (p.waitFor h t e data).live = Multimap.insert Reg.timeout ⟨p.made, h, t, e, data⟩ p.live := by
  cases hS with
  | main hc | loop hc | returned hc | dep _ _ _ _ hc => simp only [St.live, St.waitFor, hc]
  | timeout r l hc he htime =>
    have hle : r.timeout ≤ t := htime ▸ ht
    simp only [St.live, St.waitFor, hc, he]
    rw [Multimap.insert_cons_of_le l hle]
    rfl

theorem Pair.waitFor (hP : Pair dep now p n) (node : Ns2.Node) {h : Handle} {t : AbsTime} (e : Event) (data : Data)
    (hu : p.ctl.user = true) (ht : now ≤ t) (hf : Free p h) :
    Pair dep now (p.waitFor h t e data) (n.waitFor (Ns2.handles dep node) h t e data) := by
  obtain ⟨hT, hS⟩ := hP
  have hstack : (n.waitFor (Ns2.handles dep node) h t e data).stack = n.stack := by
    rw [ns2_waitFor]
    intro _ hp
    obtain ⟨-, r, hr, he⟩ := (hT.timer h).1 hp
    exact hT.book.free hf r hr he
  refine ⟨by rw [hS.live_waitFor ht]; exact hT.waitFor node e data ht hf, ?_⟩
  cases hS with
  | loop hc | returned hc => simp [hc, Posix.Ctl.user] at hu
  | main hc hs => exact .main hc (hstack.trans hs)
  | timeout r l hc he htime hs hfr =>
    have hle : r.timeout ≤ t := htime ▸ ht
    refine .timeout r (Multimap.insert Reg.timeout ⟨p.made, h, t, e, data⟩ l) hc ?_ htime (hstack.trans hs) hfr
    simp only [St.waitFor, he]
    rw [Multimap.insert_cons_of_le l hle]
  | dep elist rest r todo hc hs htodo hn hd hr =>
    refine .dep elist rest r todo hc (hstack.trans hs) htodo hn
      (fun ec hec => (hd ec hec).imp_right (List.mem_append_left _)) fun ec hec hno => ?_
    have hne : ec.reg.h ≠ h := fun he => hno _ (Multimap.mem_insert.2 (.inl rfl)) he.symm
    simp only [St.waitFor, Function.update_of_ne hne]
    exact hr ec hec fun x hx => hno x (Multimap.mem_insert.2 (.inr hx))

theorem complied_stack (n : Ns2.St) (d : Handle) : (n.complied d).stack = n.stack := by
  unfold Ns2.St.complied
  split
  · rfl
  · split <;> rfl

/-- The handle of an entry that was called in the running batch, and not registered again. -/
theorem Stacked.ready_of_inBatch (hS : Stacked dep now p n) {d : Handle} (hb : p.InBatch d) (hl : ∀ r ∈ p.live, r.h ≠ d) :
    (∃ r ∈ p.regs, r.h = d) ∧ p.status d = .ready := by
  obtain ⟨ec, hec, rfl⟩ := hb
  cases hS with
  | main hc | loop hc | returned hc | timeout _ _ hc => simp [hc, Posix.Ctl.elist] at hec
  | dep elist rest r todo hc hs htodo hn hd hr =>
    simp only [hc, Posix.Ctl.elist] at hec
    simp only [St.live, hc] at hl
    exact ⟨⟨ec.reg, (hd ec hec).2, rfl⟩, hr ec hec hl⟩

/-- A trigger that is set stays, one of the running batch will be reset, one for a waiting entry is
new: in each case both sides know of it. -/
theorem Pair.twin_complied (hP : Pair dep now p n) {d : Handle} (hd : dep d = true) (hc : Posix.Complies dep p d) :
    Twin dep p.live (p.ctl.rest.map Posix.EventCall.reg) (p.complied d).armed now (p.complied d) (n.complied d) := by
  obtain ⟨hT, hS⟩ := hP
  obtain ⟨-, ha | ⟨hb, hl⟩ | ⟨hb, ⟨r, hr, rfl⟩, hlast⟩⟩ := hc
  · have hb : ¬p.InBatch d := by
      intro hb
      rw [Posix.armed_apply, if_pos hb] at ha
      cases ha
    obtain ⟨-, r, hr, rfl⟩ := hT.book.latched d ha
    have hs : p.status r.h = .ready := by rw [hT.book.status r hr hd, if_pos ha]
    rw [Posix.armed_complied hb, ← ha, Function.update_eq_self]
    exact hT.comply_ready hd (hT.book.registered (List.mem_append_left _ hr)) hs
  · obtain ⟨hreg, hs⟩ := hS.ready_of_inBatch hb hl
    rw [Posix.armed_complied_inBatch hb]
    exact hT.comply_ready hd hreg hs
  · rw [Posix.armed_complied hb]
    by_cases ha : p.armed r.h = true
    · have hs : p.status r.h = .ready := by rw [hT.book.status r hr hd, if_pos ha]
      rw [← ha, Function.update_eq_self]
      exact hT.comply_ready hd (hT.book.registered (List.mem_append_left _ hr)) hs
    · exact hT.comply hr hd (by simpa using ha) hlast

theorem Pair.complied (hP : Pair dep now p n) {d : Handle} (hu : p.ctl.user = true) (hd : dep d = true)
    (hc : Posix.Complies dep p d) : Pair dep now (p.complied d) (n.complied d) := by
  refine ⟨hP.twin_complied hd hc, ?_⟩
  have hstack := complied_stack n d
  cases hP.2 with
  | loop hctl | returned hctl => simp [hctl, Posix.Ctl.user] at hu
  | main hctl hs => exact .main hctl (hstack.trans hs)
  | timeout r l hctl he ht hs =>
    have hdrained := hc.1
    rw [hctl, Posix.Ctl.Drained] at hdrained
    exact .timeout r l hctl he ht (hstack.trans hs) fun h => absurd h (by simp [hdrained])
  | dep elist rest r todo hctl hs ht hn hdep hr =>
    refine .dep elist rest r todo hctl (hstack.trans hs) ht hn hdep fun ec hec hno => ?_
    by_cases he : ec.reg.h = d
    · simp [St.complied, he]
    · simp only [St.complied, Function.update_of_ne he]
      exact hr ec hec hno

/-- User code returns. -/
theorem Pair.ret (hP : Pair dep now p n) (hu : p.ctl.user = true) (hl : Posix.Leaves dep p) :
    ∃ p', Posix.ret (Posix.handles dep) (fun _ => now) p = some p' ∧ Pair dep now p' (Ns2.resume n.stack.tail n) := by
  obtain ⟨hT, hS⟩ := hP
  cases hS with
  | loop hctl | returned hctl => simp [hctl, Posix.Ctl.user] at hu
  | main hctl hs =>
    simp only [Posix.Leaves, hctl] at hl
    simp only [St.live, hctl] at hT
    refine ⟨{ p with ctl := .loop }, by simp only [Posix.ret, hctl], ?_⟩
    rw [hs]
    have harmed : p.armed = ({ p with ctl := .loop } : St).armed := by
      simp only [St.armed, hctl]
      rfl
    refine ⟨harmed ▸ hT.congr { p with ctl := .loop } rfl rfl rfl rfl [], .loop rfl rfl fun r hr hd => ?_⟩
    rw [← harmed]
    exact hT.unarmed (hl r hr hd)
  | timeout r l hctl he ht hs hf =>
    have harmed : p.armed = p.triggered := by
      simp only [St.armed, hctl]
      rfl
    simp only [St.live, hctl, he, List.tail_cons, harmed] at hT
    refine ⟨Posix.depPhase (Posix.handles dep) (fun _ => now) { p with eventList := l },
      by simp only [Posix.ret, hctl, he, List.tail_cons], ?_⟩
    have hT' : Twin dep l [] p.triggered now { p with eventList := l } n :=
      hT.congr { p with eventList := l } rfl rfl rfl rfl n.stack
    rw [hs, List.tail_cons]
    by_cases hd : dep r.h = true
    · -- `expire` does not drain, but there is nothing to drain
      have hnil : (n.settle r.h).pendingList = [] := by
        have hp := (hT'.settle r.h).pending
        rw [← List.map_eq_nil_iff, hp]
        exact List.filter_eq_nil_iff.2 fun x _ => by simp [← harmed, hf hd]
      have hdrain := drain (p := { p with eventList := l }) (hT'.settle r.h)
      simp only [Ns2.resume, Ns2.doPendingEvents, hnil] at hdrain
      simpa only [if_pos hd, Ns2.resume, hnil] using hdrain
    · rw [if_neg hd]
      exact drain (p := { p with eventList := l }) hT'
  | dep elist rest r todo hctl hs ht hn hdep hr =>
    have harmed : p.armed = Posix.resetDepTrigger elist p.triggered := by
      simp only [St.armed, hctl]
      rfl
    simp only [St.live, hctl, Posix.Ctl.rest] at hT
    rw [hs, List.tail_cons]
    cases rest with
    | nil =>
      rw [List.map_nil, List.map_eq_nil_iff] at ht
      subst ht
      rw [harmed] at hT
      refine ⟨Posix.depPhase (Posix.handles dep) (fun _ => now)
        { p with triggered := Posix.resetDepTrigger elist p.triggered }, by simp only [Posix.ret, hctl], ?_⟩
      exact drain (p := { p with triggered := Posix.resetDepTrigger elist p.triggered })
        (hT.congr { p with triggered := Posix.resetDepTrigger elist p.triggered } rfl rfl rfl rfl n.stack)
    | cons ec rest =>
      rw [List.map_cons, List.map_eq_cons_iff] at ht
      obtain ⟨e, todo, rfl, hreg, htodo⟩ := ht
      refine ⟨({ p with ctl := .dep elist rest } : St).invoke ec.reg ec.t .dep, by simp only [Posix.ret, hctl], ?_⟩
      have htime : ec.t = now := hn ec List.mem_cons_self
      rw [List.map_cons, ← hreg] at hT
      obtain ⟨htwin, hstack⟩ := hT.run (({ p with ctl := .dep elist rest } : St).invoke ec.reg ec.t .dep) rfl rfl htime
        (by simp [St.calls, St.invoke, hreg, htime]) [.pend now todo]
      refine ⟨?_, .dep elist rest e.reg todo rfl hstack htodo (fun x hx => hn x (List.mem_cons_of_mem _ hx)) hdep hr⟩
      rw [harmed] at htwin
      exact htwin

/-- The deadline of the front entry. -/
theorem Pair.wake (hP : Pair dep now p n) {node : Ns2.Node} {r : Reg} {l : List Reg} {reads : Nat}
    {call : Posix.SelectCall} (hctl : p.ctl = .loop) (he : p.eventList = r :: l) :
    Pair dep r.timeout (Posix.timeoutPhase { p with reads := reads, ctl := .select call } r)
      (Ns2.dispatch (Ns2.handles dep node) n (scheduled dep r)) := by
  obtain ⟨hT, hS⟩ := hP
  cases hS with
  | main hc | returned hc | timeout _ _ hc | dep _ _ _ _ hc => rw [hctl] at hc; cases hc
  | loop _ hs hf =>
    have hf : dep r.h = true → ∀ d, p.armed d = false := hf r (by rw [he]; rfl)
    simp only [St.live, hctl, Posix.Ctl.rest, List.map_nil, he] at hT
    have hT' : Twin dep (r :: l) [] p.armed now { p with reads := reads, ctl := .select call } n :=
      hT.congr { p with reads := reads, ctl := .select call } rfl rfl rfl rfl n.stack
    have harmed : (Posix.timeoutPhase { p with reads := reads, ctl := .select call } r).armed = p.armed := by
      simp only [St.armed, hctl]
      rfl
    have hq := hT.queue_nil
    have hstack : (Ns2.dispatch (Ns2.handles dep node) n (scheduled dep r)).stack =
        [.cb r, if dep r.h then .timer r.h else .pend r.timeout []] := by
      have hfut : n.clock ≤ r.timeout := hT.clock ▸ hT.book.future r List.mem_cons_self
      have hmem : r ∈ r :: l ++ ([] : List Reg) := by simp
      rw [ns2_dispatch hq hfut fun hd => ⟨(hT.timer _).2 ⟨hd, r, hmem, rfl⟩, hT.slot r hmem hd⟩]
      split <;> simp [Ns2.St.call, hs]
    refine ⟨?_, .timeout r l rfl he rfl hstack fun hd => harmed ▸ hf hd⟩
    have hlive : (Posix.timeoutPhase { p with reads := reads, ctl := .select call } r).live = l := by
      simp only [St.live, Posix.timeoutPhase, St.invoke, he, List.tail_cons]
    rw [harmed, hlive]
    exact hT'.wake hf

/-- No registration is left. -/
theorem Pair.over (hP : Pair dep now p n) (hctl : p.ctl = .loop) (he : p.eventList = []) :
    Pair dep now { p with ctl := .returned } n := by
  obtain ⟨hT, hS⟩ := hP
  cases hS with
  | main hc | returned hc | timeout _ _ hc | dep _ _ _ _ hc => rw [hctl] at hc; cases hc
  | loop _ hs =>
    simp only [St.live, St.armed, hctl, Posix.Ctl.rest, Posix.Ctl.elist, List.map_nil] at hT
    exact ⟨hT.congr { p with ctl := .returned } rfl rfl rfl rfl n.stack, .returned rfl hs he⟩

/-! ## Runs -/

/-- The two runs of a program, between two pieces of user code. -/
structure Agree (dep : Handle → Bool) (x : Posix.Ideal σ) (y : Ns2.Ideal σ) : Prop where
  mem : y.mem = x.mem
  pair : Pair dep x.now x.st y.st

variable {P : Program σ} {x : Posix.Ideal σ} {y : Ns2.Ideal σ}

theorem Program.enter_self (P : Program σ) (m : σ) (calls : List Call) : P.enter m calls calls = m := by
  simp [Program.enter]

/-- User code sees the same on both sides. -/
theorem Agree.act (hA : Agree dep x y) (hread : P.ReadsDepends dep) : y.act P = x.act P := by
  have hT := hA.pair.1
  have hview := hread x.mem ⟨stored x.st.regs x.st.status, x.now, x.st.lastEventTime⟩ (stored x.st.regs y.st.status)
    fun h hd => by
      simp only [stored]
      split
      · rename_i hreg
        rw [hT.status h hd hreg]
      · rfl
  rw [Posix.Ideal.act, Ns2.Ideal.act, hA.mem, hT.clock, hT.last, hT.regs, hview]

/-- Both sides have made their step, and called the same callbacks in it. -/
theorem Agree.step (hA : Agree dep x y) {t : AbsTime} (hP : Pair dep t p n) (m : σ) :
    Agree dep (⟨P.enter m x.st.calls p.calls, t, p⟩ : Posix.Ideal σ) ⟨P.enter m y.st.calls n.calls, n⟩ :=
  ⟨by rw [hA.pair.1.calls, hP.1.calls], hP⟩

theorem posix_next_user (hu : x.st.ctl.user = true) :
    x.next P dep = x.take P dep (x.act P).1 (Posix.input (x.act P).2) := by
  unfold Posix.Ideal.next
  cases hc : x.st.ctl with
  | main | timeout | io | dep => rfl
  | loop | select | returned | aborted => simp [hc, Posix.Ctl.user] at hu

theorem Stacked.user (hS : Stacked dep now p n) (hu : p.ctl.user = true) :
    ∃ f fs, n.stack = f :: fs ∧ f.user = true ∧ (f = .main ∨ ∃ r, f = .cb r) := by
  cases hS with
  | loop hc | returned hc => simp [hc, Posix.Ctl.user] at hu
  | main _ hs => exact ⟨_, _, hs, rfl, .inl rfl⟩
  | timeout r _ _ _ _ hs | dep _ _ r _ _ hs => exact ⟨_, _, hs, rfl, .inr ⟨r, rfl⟩⟩

/-- The running user code makes its next call, or returns. -/
theorem Agree.next_user {node : Ns2.Node} (hA : Agree dep x y) (hread : P.ReadsDepends dep) (hu : x.st.ctl.user = true)
    (ht : x.Punctual P) (ho : x.Orderly P dep) :
    Agree dep ((x.next P dep).getD x) ((y.next P (Ns2.handles dep node)).getD y) := by
  have hT := hA.pair.1
  obtain ⟨f, fs, hs, hf, hform⟩ := hA.pair.2.user hu
  have hnext : y.next P (Ns2.handles dep node) =
      y.take P (Ns2.handles dep node) (x.act P).1 (Ns2.input (x.act P).2) := by
    simp only [Ns2.Ideal.next, hs, hA.act hread]
  have hyu : y.st.user = true := by
    simp only [Ns2.St.user, hs, hf]
  have ht := ht hu
  have ho := ho hu
  rw [posix_next_user hu, hnext]
  cases ha : (x.act P).2 with
  | none =>
    rw [ha] at ho
    obtain ⟨p', hp', hpair⟩ := hA.pair.ret hu ho
    have hx : Posix.step (Posix.handles dep) (fun _ => x.now) x.st .ret = some p' := hp'
    have hy : Ns2.step (Ns2.handles dep node) y.st .ret = some (Ns2.resume y.st.stack.tail y.st) := by
      rcases hform with rfl | ⟨r, rfl⟩ <;> simp [Ns2.step, hT.failed, hs]
    simp only [Posix.input, Ns2.input, Posix.Ideal.take, Ns2.Ideal.take, hx, hy, Option.map_some, Option.getD_some]
    exact hA.step hpair _
  | some a =>
    cases a with
    | waitFor h t e data =>
      rw [ha] at ht
      obtain ⟨hle, hfree⟩ := ht
      have hpair := hA.pair.waitFor node e data hu hle hfree
      have hx : Posix.step (Posix.handles dep) (fun _ => x.now) x.st (.waitFor h t e data) =
          some (x.st.waitFor h t e data) := by
        simp only [Posix.step, hu, if_true]
      have hy : Ns2.step (Ns2.handles dep node) y.st (.waitFor h t e data) =
          some (y.st.waitFor (Ns2.handles dep node) h t e data) := by
        simp [Ns2.step, hT.failed, hyu]
      simp only [Posix.input, Ns2.input, Posix.Ideal.take, Ns2.Ideal.take, hx, hy, Option.map_some, Option.getD_some]
      exact hA.step hpair _
    | complied d =>
      rw [ha] at ho
      by_cases hd : dep d = true
      · have hx : Posix.step (Posix.handles dep) (fun _ => x.now) x.st (.complied d) = some (x.st.complied d) := by
          simp [Posix.step, hu, Posix.Cfg.isDepend, Posix.handles, hd]
        have hy : Ns2.step (Ns2.handles dep node) y.st (.complied d) = some (y.st.complied d) := by
          simp [Ns2.step, hT.failed, hyu, Ns2.handles, hd]
        simp only [Posix.input, Ns2.input, Posix.Ideal.take, Ns2.Ideal.take, hx, hy, Option.map_some, Option.getD_some]
        exact hA.step (hA.pair.complied hu hd ho) _
      · -- `complied` exists for `DependHandle`s only
        have hx : Posix.step (Posix.handles dep) (fun _ => x.now) x.st (.complied d) = none := by
          simp [Posix.step, Posix.Cfg.isDepend, Posix.handles, hd]
        have hy : Ns2.step (Ns2.handles dep node) y.st (.complied d) = none := by
          simp [Ns2.step, Ns2.handles, hd]
        simp only [Posix.input, Ns2.input, Posix.Ideal.take, Ns2.Ideal.take, hx, hy, Option.map_none, Option.getD_none]
        exact hA

theorem selectCall_handles (dep : Handle → Bool) (r : Reg) (now : AbsTime) (l : List Reg) :
    ∃ call, Posix.selectCall (Posix.handles dep) r.timeout now l = some call := by
  have hfill : Posix.fillFdSets (Posix.handles dep) l = some (fun _ => [], 0) := by
    refine Posix.fillFdSets_unwatched fun x _ => ?_
    simp only [Posix.Cfg.descriptor, Posix.handles]
    cases dep x.h <;> rfl
  exact ⟨_, by rw [Posix.selectCall, hfill]; rfl⟩

/-- `select` is called and wakes at the deadline of the front entry. -/
theorem posix_next_loop (P : Program σ) (dep : Handle → Bool) {r : Reg} {l : List Reg} (hc : x.st.ctl = .loop)
    (he : x.st.eventList = r :: l) (ht : x.now ≤ r.timeout) :
    ∃ reads call, x.next P dep =
      some ⟨P.enter x.mem x.st.calls (Posix.timeoutPhase { x.st with reads := reads, ctl := .select call } r).calls,
        r.timeout, Posix.timeoutPhase { x.st with reads := reads, ctl := .select call } r⟩ := by
  obtain ⟨call, hcall⟩ := selectCall_handles dep r x.now (r :: l)
  refine ⟨x.st.reads + 1, call, ?_⟩
  have hself : ∀ (s : St) (calls : List Call), s.calls = x.st.calls →
      P.enter (P.enter x.mem x.st.calls s.calls) s.calls calls = P.enter x.mem x.st.calls calls := by
    intro s calls hs
    rw [hs, P.enter_self]
  simp only [Posix.Ideal.next, hc, Posix.Ideal.take, Posix.step, Posix.loopHead, he, hcall, Option.map_some,
    Option.bind_some, max_eq_right ht, Posix.wake, Option.some.injEq, Posix.Ideal.mk.injEq, and_true]
  exact hself _ _ rfl

/-- The head of the POSIX loop, and the ns-2 scheduler. -/
theorem Agree.next_idle {node : Ns2.Node} (hA : Agree dep x y) (hu : x.st.ctl.user ≠ true) :
    Agree dep ((x.next P dep).getD x) ((y.next P (Ns2.handles dep node)).getD y) := by
  have hT := hA.pair.1
  cases hA.pair.2 with
  | main hc | timeout _ _ hc | dep _ _ _ _ hc => simp [hc, Posix.Ctl.user] at hu
  | returned hc hs he =>
    simp only [St.live, hc, he, Posix.Ctl.rest, List.map_nil] at hT
    have hx : x.next P dep = none := by simp only [Posix.Ideal.next, hc]
    have hy : y.next P (Ns2.handles dep node) = none := by simp [Ns2.Ideal.next, hs, hT.queue_nil]
    rw [hx, hy]
    exact hA
  | loop hc hs hf =>
    cases he : x.st.eventList with
    | nil =>
      simp only [St.live, hc, he, Posix.Ctl.rest, List.map_nil] at hT
      have hx : x.next P dep = some ⟨x.mem, x.now, { x.st with ctl := .returned }⟩ := by
        simp only [Posix.Ideal.next, hc, Posix.Ideal.take, Posix.step, Posix.loopHead, he, Option.map_some,
          Option.bind_some, Option.some.injEq, Posix.Ideal.mk.injEq, and_true]
        exact P.enter_self _ _
      have hy : y.next P (Ns2.handles dep node) = none := by simp [Ns2.Ideal.next, hs, hT.queue_nil]
      rw [hx, hy]
      exact ⟨hA.mem, hA.pair.over hc he⟩
    | cons r l =>
      simp only [St.live, hc, he, Posix.Ctl.rest, List.map_nil] at hT
      have hq := hT.queue_nil
      have hmem : scheduled dep r ∈ y.st.queue := by rw [hq]; exact List.mem_cons_self
      obtain ⟨reads, call, hx⟩ := posix_next_loop P dep hc he (hT.book.future r List.mem_cons_self)
      have hy : y.next P (Ns2.handles dep node) = some ⟨P.enter y.mem y.st.calls
          (Ns2.dispatch (Ns2.handles dep node) y.st (scheduled dep r)).calls,
          Ns2.dispatch (Ns2.handles dep node) y.st (scheduled dep r)⟩ := by
        simp [Ns2.Ideal.next, hs, hq, Ns2.Ideal.take, Ns2.step, hT.failed]
      rw [hx, hy, Option.getD_some, Option.getD_some, ← hA.mem]
      exact hA.step (hA.pair.wake hc he) _

theorem agree_start (P : Program σ) (dep : Handle → Bool) (node : Ns2.Node) (t0 : AbsTime) (status status' : Handle → Status) :
    Agree dep ⟨P.main, t0, { St.init t0 with status := status }⟩
      ⟨P.main, Ns2.geaStart { Ns2.St.init status' with clock := t0 } node⟩ := by
  refine ⟨rfl, ⟨⟨?_, ?_, ?_, ?_, ?_, ?_, ?_, ?_⟩, rfl, rfl, rfl, rfl, rfl, ?_, rfl, ?_, ?_, ?_, rfl⟩,
    .main rfl rfl⟩
  all_goals simp [St.live, St.armed, St.init, Posix.Ctl.rest, Posix.Ctl.elist, Posix.resetDepTrigger, Ns2.geaStart,
    Ns2.St.init, St.calls, Multimap.Sorted]

variable {dep : Handle → Bool} {node : Ns2.Node} {t0 : AbsTime} {status status' : Handle → Status}

theorem agree_run (hread : P.ReadsDepends dep) (ht : ∀ n, (Posix.run P dep t0 status n).Punctual P)
    (ho : ∀ n, (Posix.run P dep t0 status n).Orderly P dep) :
    ∀ n, Agree dep (Posix.run P dep t0 status n) (Ns2.run P dep node t0 status' n)
  | 0 => agree_start P dep node t0 status status'
  | n + 1 => by
    have hA := agree_run hread ht ho n
    by_cases hu : (Posix.run P dep t0 status n).st.ctl.user = true
    · exact hA.next_user hread hu (ht n) (ho n)
    · exact hA.next_idle hu

def sampleDep (h : Handle) : Bool := h != 0

/-- The `Blocker`'s callback triggers 1 and 2, which were registered with the deadlines `t1` and `t2`. -/
def triggerBoth (t1 t2 : AbsTime) : Program (List Act) :=
  .script [.waitFor 0 1 0 0, .waitFor 1 t1 1 0, .waitFor 2 t2 2 0] fun e =>
    if e = 0 then [.complied 1, .complied 2] else []

end Gea
