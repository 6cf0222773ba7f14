import Awds.Posix.Loop
import Awds.Lib.Run

/-!
# What a step of the POSIX loop can do

`step_cases` says it once, branch by branch of `run`; every invariant is derived from it. The two
collecting phases have their own case lemmas, `depPhase_cases` and `ioPhase_cases`: nothing is
collected, or the entries of a non-empty batch leave `eventList`, their handles become `Ready`, and
the first callback of the batch is called.
-/

namespace Posix

open Gea

variable {cfg : Cfg} {clock : Nat → AbsTime}

/-- The state in which the first callback of a batch runs: the entries accepted by `pred` were
taken out of `eventList`. -/
def St.batch (s : St) (pred : Reg → Bool) (ctl : Ctl) (ec : EventCall)
    (phase : Phase) : St :=
  { s with
    eventList := s.eventList.filter (!pred ·)
    status := fun h => if ∃ r ∈ s.eventList.filter pred, r.h = h then .ready else s.status h
    reads := s.reads + (s.eventList.filter pred).length
    ctl := ctl
    lastEventTime := ec.t
    log := s.log ++ [⟨ec.reg, ec.t, .ready, phase⟩] }

/-- `elist` is the batch of `EventCall`s collected in `s` for the entries accepted by `pred`. -/
structure Collected (clock : Nat → AbsTime) (pred : Reg → Bool) (s : St) (elist : List EventCall) : Prop where
  regs : elist.map EventCall.reg = s.eventList.filter pred
  times : elist.map EventCall.t = (List.range elist.length).map fun i => clock (s.reads + i)

theorem Collected.length {pred : Reg → Bool} {s : St} {elist : List EventCall}
    (h : Collected clock pred s elist) : (s.eventList.filter pred).length = elist.length := by
  rw [← h.regs, List.length_map]

theorem Collected.mem {pred : Reg → Bool} {s : St} {elist : List EventCall} (h : Collected clock pred s elist)
    {ec : EventCall} (hec : ec ∈ elist) : ec.reg ∈ s.eventList ∧ pred ec.reg = true := by
  have : ec.reg ∈ s.eventList.filter pred := h.regs ▸ List.mem_map_of_mem hec
  exact List.mem_filter.1 this

theorem Collected.time {pred : Reg → Bool} {s : St} {elist : List EventCall} (h : Collected clock pred s elist)
    {ec : EventCall} (hec : ec ∈ elist) : ∃ i < elist.length, ec.t = clock (s.reads + i) := by
  have : ec.t ∈ elist.map EventCall.t := List.mem_map_of_mem hec
  rw [h.times, List.mem_map] at this
  obtain ⟨i, hi, ht⟩ := this
  exact ⟨i, List.mem_range.1 hi, ht.symm⟩

theorem removeIf_collected (clock : Nat → AbsTime) (pred : Reg → Bool) (s : St) :
    Collected clock pred s (removeIf clock pred s.eventList s).2.1 :=
  ⟨removeIf_reg clock pred _ _, removeIf_times clock pred _ _⟩

/-- Calling the first callback of a batch. -/
theorem invoke_batch (pred : Reg → Bool) (s : St) (ctl : Ctl) (ec : EventCall) (rest : List EventCall)
    (phase : Phase) (he : (removeIf clock pred s.eventList s).2.1 = ec :: rest) :
    { (removeIf clock pred s.eventList s).2.2 with
      eventList := (removeIf clock pred s.eventList s).1, ctl := ctl }.invoke ec.reg ec.t phase =
      s.batch pred ctl ec phase := by
  have hreg := removeIf_reg clock pred s.eventList s
  rw [he, List.map_cons] at hreg
  have hmem : ∃ r ∈ s.eventList.filter pred, r.h = ec.reg.h := ⟨ec.reg, by rw [← hreg]; simp, rfl⟩
  simp only [St.invoke, removeIf_kept, removeIf_state, if_pos hmem, St.batch]

/-- Nothing to collect: `remove_if` changes nothing. -/
theorem removeIf_none (pred : Reg → Bool) (s : St) (h : (removeIf clock pred s.eventList s).2.1 = []) :
    s.eventList.filter pred = [] ∧ (removeIf clock pred s.eventList s).1 = s.eventList ∧
      (removeIf clock pred s.eventList s).2.2 = s := by
  have hf : s.eventList.filter pred = [] := by
    rw [← removeIf_reg clock pred s.eventList s, h, List.map_nil]
  have hall : ∀ r ∈ s.eventList, (!pred r) = true := fun r hr => by
    simpa using List.filter_eq_nil_iff.1 hf r hr
  refine ⟨hf, by rw [removeIf_kept, List.filter_eq_self.2 hall], ?_⟩
  rw [removeIf_state, hf]
  simp

/-- The dependency phase: no entry's handle is triggered and the iteration ends, or a batch is
collected and its first callback called. -/
theorem depPhase_cases (cfg : Cfg) (clock : Nat → AbsTime) (s : St) :
    (s.eventList.filter (activeDep cfg s.triggered) = [] ∧ depPhase cfg clock s = { s with ctl := .loop }) ∨
    ∃ ec rest, Collected clock (activeDep cfg s.triggered) s (ec :: rest) ∧
      depPhase cfg clock s =
        s.batch (activeDep cfg s.triggered) (.dep (ec :: rest) rest) ec .dep := by
  have hcol := removeIf_collected clock (activeDep cfg s.triggered) s
  cases he : (removeIf clock (activeDep cfg s.triggered) s.eventList s).2.1 with
  | nil =>
    obtain ⟨hf, hk, hs⟩ := removeIf_none _ s he
    refine .inl ⟨hf, ?_⟩
    simp only [depPhase, he, hk, hs]
  | cons ec rest =>
    rw [he] at hcol
    refine .inr ⟨ec, rest, hcol, ?_⟩
    rw [← invoke_batch _ s _ ec rest .dep he]
    simp only [depPhase, he]

/-- The descriptor branch: no entry's descriptor is ready and the dependency phase follows, or a
batch is collected and its first callback called. -/
theorem ioPhase_cases (cfg : Cfg) (clock : Nat → AbsTime) (set : FdSets) (s : St) :
    (s.eventList.filter (activeFd cfg set) = [] ∧ ioPhase cfg clock set s = depPhase cfg clock s) ∨
    ∃ ec rest, Collected clock (activeFd cfg set) s (ec :: rest) ∧
      ioPhase cfg clock set s = s.batch (activeFd cfg set) (.io rest) ec .io := by
  have hcol := removeIf_collected clock (activeFd cfg set) s
  cases he : (removeIf clock (activeFd cfg set) s.eventList s).2.1 with
  | nil =>
    obtain ⟨hf, hk, hs⟩ := removeIf_none _ s he
    refine .inl ⟨hf, ?_⟩
    simp only [ioPhase, he, hk, hs]
  | cons ec rest =>
    rw [he] at hcol
    refine .inr ⟨ec, rest, hcol, ?_⟩
    rw [← invoke_batch _ s _ ec rest .io he]
    simp only [ioPhase, he]

/-- One step of the loop, branch by branch. -/
inductive Step (cfg : Cfg) (clock : Nat → AbsTime) : St → Input → St → Prop where
  | returned {s} (hc : s.ctl = .loop) (he : s.eventList = []) :
      Step cfg clock s .enter { s with ctl := .returned }
  | select {s r rs call} (hc : s.ctl = .loop) (he : s.eventList = r :: rs)
      (hcall : selectCall cfg r.timeout (clock s.reads) s.eventList = some call) :
      Step cfg clock s .enter { s with reads := s.reads + 1, ctl := .select call }
  | overflow {s r rs} (hc : s.ctl = .loop) (he : s.eventList = r :: rs) (hcall : fillFdSets cfg s.eventList = none) :
      Step cfg clock s .enter { s with reads := s.reads + 1, ctl := .aborted }
  | timeout {s r rs call} (hc : s.ctl = .select call) (he : s.eventList = r :: rs) :
      Step cfg clock s (.wake .timeout) (timeoutPhase s r)
  | ready {s call} (set) (hc : s.ctl = .select call) :
      Step cfg clock s (.wake (.ready set)) (ioPhase cfg clock set s)
  | failed {s call} (hc : s.ctl = .select call) : Step cfg clock s (.wake .error) { s with ctl := .aborted }
  | waitFor {s} (h t e d) (hu : s.ctl.user = true) : Step cfg clock s (.waitFor h t e d) (s.waitFor h t e d)
  | complied {s} (d) (hu : s.ctl.user = true) (hd : cfg.isDepend d = true) :
      Step cfg clock s (.complied d) (s.complied d)
  | retMain {s} (hc : s.ctl = .main) : Step cfg clock s .ret { s with ctl := .loop }
  | retTimeout {s r} (hc : s.ctl = .timeout r) :
      Step cfg clock s .ret (depPhase cfg clock { s with eventList := s.eventList.tail })
  | retIo {s} (hc : s.ctl = .io []) : Step cfg clock s .ret (depPhase cfg clock s)
  | nextIo {s ec rest} (hc : s.ctl = .io (ec :: rest)) :
      Step cfg clock s .ret ({ s with ctl := .io rest }.invoke ec.reg ec.t .io)
  | retDep {s elist} (hc : s.ctl = .dep elist []) :
      Step cfg clock s .ret (depPhase cfg clock { s with triggered := resetDepTrigger elist s.triggered })
  | nextDep {s elist ec rest} (hc : s.ctl = .dep elist (ec :: rest)) :
      Step cfg clock s .ret ({ s with ctl := .dep elist rest }.invoke ec.reg ec.t .dep)

theorem step_cases {s s' : St} {i : Input} (h : step cfg clock s i = some s') : Step cfg clock s i s' := by
  cases i with
  | enter =>
    simp only [step] at h
    split at h
    · rename_i hc
      simp only [loopHead] at h
      split at h
      · rename_i he; cases h; exact .returned hc he
      · rename_i r rs he
        split at h
        · rename_i hcall
          cases h
          exact .overflow hc he (Option.map_eq_none_iff.1 hcall)
        · rename_i call hcall
          cases h
          exact .select hc he hcall
    · cases h
  | wake o =>
    simp only [step] at h
    split at h
    · rename_i call hc
      cases o with
      | timeout =>
        cases he : s.eventList with
        | nil => simp [wake, he] at h
        | cons r rs => simp only [wake, he, Option.some.injEq] at h; subst h; exact .timeout hc he
      | ready set => simp only [wake, Option.some.injEq] at h; subst h; exact .ready set hc
      | error => simp only [wake, Option.some.injEq] at h; subst h; exact .failed hc
    · cases h
  | waitFor k t e d =>
    simp only [step] at h
    split at h
    · rename_i hu; cases h; exact .waitFor k t e d hu
    · cases h
  | complied d =>
    simp only [step] at h
    split at h
    · rename_i hu; cases h; simp only [Bool.and_eq_true] at hu; exact .complied d hu.1 hu.2
    · cases h
  | ret =>
    simp only [step, ret] at h
    split at h
    · rename_i hc; cases h; exact .retMain hc
    · rename_i hc; cases h; exact .retTimeout hc
    · rename_i hc; cases h; exact .retIo hc
    · rename_i hc; cases h; exact .nextIo hc
    · rename_i hc; cases h; exact .retDep hc
    · rename_i hc; cases h; exact .nextDep hc
    · cases h

/-- The states the program reaches when every input satisfies `ok`. -/
def Reaches (cfg : Cfg) (clock : Nat → AbsTime) (ok : St → Input → Prop) (s : St) : Prop :=
  ∃ t0, Lts.Reach (step cfg clock) ok (St.init t0) s

/-- The invariant rule for the loop, over the branches of `run`. -/
theorem Reaches.invariant {ok : St → Input → Prop} {I : St → Prop} {s : St}
    (h : Reaches cfg clock ok s) (h0 : ∀ t0, I (St.init t0))
    (hstep : ∀ t i u, I t → ok t i → Step cfg clock t i u → I u) : I s := by
  obtain ⟨t0, hr⟩ := h
  exact hr.invariant (h0 t0) fun t i u hI ho hs => hstep t i u hI ho (step_cases hs)

/-! ## The log only grows -/

theorem depPhase_log (cfg : Cfg) (clock : Nat → AbsTime) (s : St) : s.log <+: (depPhase cfg clock s).log := by
  rcases depPhase_cases cfg clock s with ⟨_, he⟩ | ⟨ec, rest, _, he⟩
  · exact (congrArg St.log he).symm ▸ List.prefix_rfl
  · exact (congrArg St.log he).symm ▸ List.prefix_append _ _

theorem ioPhase_log (cfg : Cfg) (clock : Nat → AbsTime) (set : FdSets) (s : St) : s.log <+: (ioPhase cfg clock set s).log := by
  rcases ioPhase_cases cfg clock set s with ⟨_, he⟩ | ⟨ec, rest, _, he⟩
  · exact he ▸ depPhase_log cfg clock s
  · exact (congrArg St.log he).symm ▸ List.prefix_append _ _

theorem Step.log {s s' : St} {i : Input} (h : Step cfg clock s i s') : s.log <+: s'.log := by
  cases h with
  | returned | select | overflow | failed | waitFor | complied | retMain => exact List.prefix_rfl
  | timeout | nextIo | nextDep => exact List.prefix_append _ _
  | ready set _ => exact ioPhase_log cfg clock set s
  | retTimeout => exact depPhase_log cfg clock { s with eventList := s.eventList.tail }
  | retIo => exact depPhase_log cfg clock s
  | @retDep elist _ =>
    exact depPhase_log cfg clock { s with triggered := resetDepTrigger elist s.triggered }

/-! ## Concrete runs -/

/-- A state computed by running `is` from `gea_main`. -/
theorem reaches_get {ok : St → Input → Prop} [∀ s i, Decidable (ok s i)] (t0 : AbsTime) (is : List Input)
    (h : (Lts.execOk (step cfg clock) ok (St.init t0) is).isSome = true) :
    Reaches cfg clock ok ((Lts.execOk (step cfg clock) ok (St.init t0) is).get h) :=
  ⟨t0, Lts.reach_get is h⟩

/-- A `Blocker` (0), two `DependHandle`s (1, 2) and standard input as a `UnixFdHandle` (3), for the
concrete runs below. -/
def sampleCfg : Cfg where
  shadowHandle h := match h with
    | 0 => ⟨.blocker, 0, .read⟩
    | 1 | 2 => ⟨.depend, 0, .read⟩
    | _ => ⟨.unixFd, 0, .read⟩
  subUdpHandle h := h

/-! ## `resetDepTrigger` -/

theorem resetDepTrigger_apply (elist : List EventCall) (tr : Handle → Bool) (h : Handle) :
    resetDepTrigger elist tr h = if ∃ ec ∈ elist, ec.reg.h = h then false else tr h := by
  unfold resetDepTrigger
  induction elist generalizing tr with
  | nil => simp
  | cons ec elist ih =>
    rw [List.foldl_cons, ih]
    simp only [List.exists_mem_cons_iff]
    by_cases h1 : ∃ x ∈ elist, x.reg.h = h
    · simp [h1]
    · by_cases h2 : ec.reg.h = h
      · subst h2; simp
      · simp [h1, h2, Function.update_of_ne (Ne.symm h2)]

end Posix
