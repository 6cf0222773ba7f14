import Awds.Lib.Queue
import Awds.Posix.Accounting
import Awds.Posix.Clock

/-!
# Timers are a stable priority queue

When a program uses only `Blocker`s, `select` has nothing to answer but 0, and `run` is a priority
queue (`timers_step`): `waitFor` adds a registration, each iteration serves the first of those that
wait in the order of (deadline, number). What a callback adds comes behind its own registration, so
the front that is erased when it returns (:284) is the entry it was called for. A deadline that is 2³¹ s
or more ahead when its turn comes ends the program: the seconds do not fit into the `int` that
`double2Timeval` makes of them, and `select` fails.
-/

namespace Posix

open Gea

/-- `a` has the earlier deadline, or the same one and was registered earlier. -/
def Before (a b : Reg) : Prop := a.timeout < b.timeout ∨ a.timeout = b.timeout ∧ a.id < b.id

def rank (r : Reg) : AbsTime ×ₗ ℕ := toLex (r.timeout, r.id)

theorem rank_lt {a b : Reg} : rank a < rank b ↔ Before a b := Prod.Lex.toLex_lt_toLex

/-- The program uses only `Blocker`s, and its callbacks register no deadline before the one they were
called for; `select` answers what it may. -/
def BlockersOnly (cfg : Cfg) (s : St) : Input → Prop
  | .waitFor h t e d => (cfg.shadowHandle h).handleType = .blocker ∧ NotBeforeOwn s (.waitFor h t e d)
  | .wake o => match s.ctl with
    | .select call => call.Answers o
    | _ => True
  | .enter | .complied _ | .ret => True

instance (cfg : Cfg) (s : St) : (i : Input) → Decidable (BlockersOnly cfg s i)
  | .waitFor h t e d => inferInstanceAs (Decidable (_ ∧ NotBeforeOwn s (.waitFor h t e d)))
  | .wake o => match hc : s.ctl with
    | .select call => decidable_of_iff (call.Answers o) (by simp only [BlockersOnly, hc])
    | .main | .loop | .timeout _ | .io _ | .dep _ _ | .returned | .aborted => isTrue (by simp only [BlockersOnly, hc])
  | .enter | .complied _ | .ret => isTrue trivial

/-- The first deadline is less than 2³¹ s ahead of the clock at the head of the loop. -/
def NearFront (clock : Nat → AbsTime) (s : St) : Input → Prop
  | .enter => ∀ r ∈ s.eventList.head?, Near r.timeout (clock s.reads)
  | _ => True

instance (clock : Nat → AbsTime) (s : St) : (i : Input) → Decidable (NearFront clock s i)
  | .enter => inferInstanceAs (Decidable (∀ r ∈ s.eventList.head?, Near r.timeout (clock s.reads)))
  | .wake _ | .waitFor _ _ _ _ | .complied _ | .ret => isTrue trivial

def TimersOnly (cfg : Cfg) (clock : Nat → AbsTime) (s : St) (i : Input) : Prop :=
  BlockersOnly cfg s i ∧ NearFront clock s i

instance (cfg : Cfg) (clock : Nat → AbsTime) (s : St) (i : Input) : Decidable (TimersOnly cfg clock s i) :=
  inferInstanceAs (Decidable (_ ∧ _))

/-- The registrations called, in order. -/
def St.called (s : St) : List Reg := s.log.map Invocation.reg

/-- The registrations waiting: `eventList`, without the entry whose callback runs. -/
def St.timers (s : St) : List Reg :=
  match s.ctl with
  | .timeout _ => s.eventList.tail
  | _ => s.eventList

/-- The loop as a queue. -/
def St.queue (s : St) : PriorityQueue.St Reg := ⟨s.regs, s.timers, s.called⟩

variable {cfg : Cfg} {clock : Nat → AbsTime} {s s' : St}

theorem timers_of_ne (h : ∀ r, s.ctl ≠ .timeout r) : s.timers = s.eventList := by
  unfold St.timers
  split
  · rename_i r hc; exact absurd hc (h r)
  · rfl

structure Timers (cfg : Cfg) (s : St) : Prop where
  run : PriorityQueue.Run rank .init s.queue
  ranked : s.eventList.Pairwise (rank · < rank ·)
  blocker : ∀ r ∈ s.eventList, (cfg.shadowHandle r.h).handleType = .blocker
  ids : ∀ r ∈ s.eventList, r.id < s.made
  main : s.ctl = .main → s.log = []
  select : ∀ call, s.ctl = .select call → s.eventList ≠ [] ∧ (∀ m, call.sets m = []) ∧ call.tv.Valid
  timeout : ∀ r, s.ctl = .timeout r → (∃ rs, s.eventList = r :: rs) ∧ s.called.getLast? = some r
  noBatch : (∀ rest, s.ctl ≠ .io rest) ∧ ∀ elist rest, s.ctl ≠ .dep elist rest
  returned : s.ctl = .returned → s.eventList = []
  alive : s.ctl ≠ .aborted
  told : ∀ inv ∈ s.log, inv.t = inv.reg.timeout ∧ inv.status = .timeout

/-- `Blocker`s give `select` nothing to wait for. -/
theorem selectCall_blockers (key now : AbsTime) {l : List Reg}
    (h : ∀ r ∈ l, (cfg.shadowHandle r.h).handleType = .blocker) :
    selectCall cfg key now l = some ⟨fun _ => [], 0, sleepTimeval key now⟩ := by
  have hfill : fillFdSets cfg l = some (fun _ => [], 0) :=
    fillFdSets_unwatched fun r hr => by simp only [Cfg.descriptor, h r hr]
  rw [selectCall, hfill]
  rfl

/-- It answers 0 then, or fails for a time it does not take. -/
theorem SelectCall.answers_blockers {call : SelectCall} {o : SelectResult} (hsets : ∀ m, call.sets m = [])
    (ha : call.Answers o) : o = .timeout ∧ call.tv.Valid ∨ o = .error ∧ ¬call.tv.Valid := by
  cases o with
  | timeout => exact .inl ⟨rfl, ha⟩
  | ready set =>
    obtain ⟨m, fd, hfd⟩ := ha.2.nonempty
    have hin := ha.2.subset hfd
    rw [hsets m] at hin
    cases hin
  | error =>
    refine .inr ⟨rfl, ha.resolve_right ?_⟩
    rintro ⟨m, -, hne⟩
    exact hne (hsets m)

/-- Between two callbacks nothing is registered, called or erased. -/
theorem Timers.idle (h : Timers cfg s) (hq : s'.queue = s.queue) (hl : s'.eventList.Sublist s.eventList)
    (hr : s'.regs = s.regs) (hlog : s'.log = s.log) (hm : s'.ctl ≠ .main)
    (hsel : ∀ call, s'.ctl = .select call → s'.eventList ≠ [] ∧ (∀ m, call.sets m = []) ∧ call.tv.Valid)
    (ht : ∀ r, s'.ctl ≠ .timeout r)
    (hb : (∀ rest, s'.ctl ≠ .io rest) ∧ ∀ elist rest, s'.ctl ≠ .dep elist rest)
    (hret : s'.ctl = .returned → s'.eventList = []) (ha : s'.ctl ≠ .aborted) : Timers cfg s' := by
  refine ⟨hq ▸ h.run, h.ranked.sublist hl, fun r hr => h.blocker r (hl.subset hr), fun r hm => ?_,
    fun hc => absurd hc hm, hsel, fun r hc => absurd hc (ht r), hb, hret, ha, hlog ▸ h.told⟩
  rw [St.made, hr]
  exact h.ids r (hl.subset hm)

/-- The registration a `waitFor` makes comes behind the one whose callback runs. -/
theorem Timers.last_before {k : Handle} {t : AbsTime} {e : Event} {d : Data} (h : Timers cfg s)
    (hu : s.ctl.user = true) (ho : NotBeforeOwn s (.waitFor k t e d)) :
    ∀ r ∈ s.called.getLast?, rank r < rank ⟨s.made, k, t, e, d⟩ := by
  intro r hr
  cases hc : s.ctl with
  | main =>
    rw [St.called, h.main hc] at hr
    cases hr
  | timeout r' =>
    obtain ⟨⟨rs, he⟩, hlast⟩ := h.timeout r' hc
    obtain rfl : r' = r := by rw [hlast] at hr; exact Option.some.inj hr
    have hle : r'.timeout ≤ t := ho.le hc
    have hid : r'.id < s.made := h.ids r' (by rw [he]; exact List.mem_cons_self)
    refine rank_lt.2 ?_
    rcases hle.lt_or_eq with hlt | heq
    · exact .inl hlt
    · exact .inr ⟨heq, hid⟩
  | io rest => exact absurd hc (h.noBatch.1 rest)
  | dep elist rest => exact absurd hc (h.noBatch.2 elist rest)
  | loop | select | returned | aborted => rw [hc] at hu; cases hu

theorem timers_waitFor {k : Handle} {t : AbsTime} {e : Event} {d : Data} (h : Timers cfg s)
    (hu : s.ctl.user = true) (ho : BlockersOnly cfg s (.waitFor k t e d)) : Timers cfg (s.waitFor k t e d) := by
  obtain ⟨hk, ho⟩ := ho
  have hlast := h.last_before hu ho
  have htimers : ((s.waitFor k t e d).timers : Multiset Reg) = ⟨s.made, k, t, e, d⟩ ::ₘ (s.timers : Multiset Reg) := by
    cases hc : s.ctl with
    | timeout r =>
      obtain ⟨rs, he⟩ := (h.timeout r hc).1
      have hins : Multimap.insert Reg.timeout ⟨s.made, k, t, e, d⟩ (r :: rs) =
          r :: Multimap.insert Reg.timeout ⟨s.made, k, t, e, d⟩ rs := Multimap.insert_cons_of_le rs (ho.le hc)
      simp only [St.timers, St.waitFor, hc, he, hins, List.tail_cons]
      exact Multiset.coe_eq_coe.2 (Multimap.insert_perm _ _ rs)
    | _ =>
      simp only [St.timers, St.waitFor, hc]
      exact Multiset.coe_eq_coe.2 (Multimap.insert_perm _ _ s.eventList)
  have hadd : (s.waitFor k t e d).queue = s.queue.add ⟨s.made, k, t, e, d⟩ := by
    simp only [St.queue, PriorityQueue.St.add, htimers]
    rfl
  have hnew : ∀ y ∈ s.queue.waiting, rank y ≠ rank ⟨s.made, k, t, e, d⟩ := by
    intro y hy he
    have hmem : y ∈ s.eventList := by
      have hy : y ∈ s.timers := hy
      unfold St.timers at hy
      split at hy
      · exact List.mem_of_mem_tail hy
      · exact hy
    have hid : y.id = s.made := congrArg (fun x => (ofLex x).2) he
    exact absurd (h.ids y hmem) (by omega)
  refine ⟨h.run.tail ?_, ?_, ?_, ?_, h.main, ?_, ?_, h.noBatch, ?_, h.alive, h.told⟩
  · rw [hadd]
    exact .add _ hnew hlast
  · exact Multimap.stable_insert h.ranked h.ids
  · intro r hr
    rcases Multimap.mem_insert.1 hr with rfl | hr
    · exact hk
    · exact h.blocker r hr
  · intro r hr
    simp only [St.made, St.waitFor, List.length_append, List.length_singleton]
    rcases Multimap.mem_insert.1 hr with rfl | hr
    · exact Nat.lt_succ_self _
    · exact Nat.lt_succ_of_lt (h.ids r hr)
  · intro call hc
    have hc : s.ctl = .select call := hc
    rw [hc] at hu; cases hu
  · intro r hc
    obtain ⟨⟨rs, he⟩, hl⟩ := h.timeout r hc
    refine ⟨⟨Multimap.insert Reg.timeout ⟨s.made, k, t, e, d⟩ rs, ?_⟩, hl⟩
    simp only [St.waitFor, he]
    exact Multimap.insert_cons_of_le rs (ho.le hc)
  · intro hc
    have hc : s.ctl = .returned := hc
    rw [hc] at hu; cases hu

/-- The timeout branch serves the first registration. -/
theorem timers_timeout {r : Reg} {rs : List Reg} {call : SelectCall} (h : Timers cfg s) (hc : s.ctl = .select call)
    (he : s.eventList = r :: rs) : Timers cfg (timeoutPhase s r) := by
  have hranked := h.ranked
  rw [he] at hranked
  have hqueue : s.queue = ⟨s.regs, r ::ₘ (rs : Multiset Reg), s.called⟩ := by
    rw [St.queue, timers_of_ne (by simp [hc]), he]
    rfl
  have hserve : (timeoutPhase s r).queue = ⟨s.regs, (rs : Multiset Reg), s.called ++ [r]⟩ := by
    simp [St.queue, St.timers, St.called, timeoutPhase, St.invoke, he]
  refine ⟨h.run.tail ?_, h.ranked, h.blocker, h.ids, by simp [timeoutPhase, St.invoke],
    by simp [timeoutPhase, St.invoke], ?_, by simp [timeoutPhase, St.invoke], by simp [timeoutPhase, St.invoke],
    by simp [timeoutPhase, St.invoke], ?_⟩
  · rw [hserve, hqueue]
    exact .serve r rs rfl fun y hy => ((List.pairwise_cons.1 hranked).1 y hy).le
  · intro r' hr'
    cases hr'
    exact ⟨⟨rs, he⟩, by simp [St.called, timeoutPhase, St.invoke]⟩
  · intro inv hinv
    rcases List.mem_append.1 hinv with hinv | hinv
    · exact h.told inv hinv
    · rw [List.mem_singleton.1 hinv]
      exact ⟨rfl, by simp⟩

/-- No `Blocker` is triggered. -/
theorem depPhase_blockers (h : ∀ r ∈ s.eventList, (cfg.shadowHandle r.h).handleType = .blocker) :
    depPhase cfg clock s = { s with ctl := .loop } := by
  rcases depPhase_cases cfg clock s with ⟨-, he⟩ | ⟨ec, rest, hcol, -⟩
  · exact he
  · have hec : ec ∈ ec :: rest := List.mem_cons_self
    obtain ⟨hmem, hact⟩ := hcol.mem hec
    simp [activeDep, Cfg.isDepend, h ec.reg hmem] at hact

theorem timers_step {i : Input} (h : Timers cfg s) (ho : TimersOnly cfg clock s i) (hs : Step cfg clock s i s') :
    Timers cfg s' := by
  obtain ⟨ho, hnear⟩ := ho
  cases hs with
  | returned hc he =>
    refine h.idle ?_ (List.Sublist.refl _) rfl rfl (by simp) (by simp) (by simp) (by simp) (fun _ => he) (by simp)
    simp [St.queue, St.timers, St.called, hc]
  | @select r rs call hc he hcall =>
    refine h.idle ?_ (List.Sublist.refl _) rfl rfl (by simp) ?_ (by simp) (by simp) (by simp) (by simp)
    · simp [St.queue, St.timers, St.called, hc]
    · intro call' hcall'
      cases hcall'
      rw [selectCall_blockers _ _ h.blocker] at hcall
      cases hcall
      exact ⟨by simp [he], fun _ => rfl, sleepTimeval_valid.2 (hnear r (by simp [he]))⟩
  | @overflow r rs hc he hcall =>
    have hsome := selectCall_blockers 0 0 h.blocker
    rw [selectCall, hcall] at hsome
    cases hsome
  | timeout hc he => exact timers_timeout h hc he
  | ready set hc =>
    simp only [BlockersOnly, hc] at ho
    obtain ⟨ho, -⟩ | ⟨ho, -⟩ := SelectCall.answers_blockers (h.select _ hc).2.1 ho
    · cases ho
    · cases ho
  | failed hc =>
    simp only [BlockersOnly, hc] at ho
    obtain ⟨ho, -⟩ | ⟨-, hv⟩ := SelectCall.answers_blockers (h.select _ hc).2.1 ho
    · cases ho
    · exact absurd (h.select _ hc).2.2 hv
  | waitFor k t e d hu => exact timers_waitFor h hu ho
  | complied d hu =>
    exact ⟨h.run, h.ranked, h.blocker, h.ids, h.main, h.select, h.timeout, h.noBatch, h.returned, h.alive, h.told⟩
  | retMain hc =>
    refine h.idle ?_ (List.Sublist.refl _) rfl rfl (by simp) (by simp) (by simp) (by simp) (by simp) (by simp)
    simp [St.queue, St.timers, St.called, hc]
  | retTimeout hc =>
    rw [depPhase_blockers fun r hr => h.blocker r (List.mem_of_mem_tail hr)]
    refine h.idle ?_ (List.tail_sublist _) rfl rfl (by simp) (by simp) (by simp) (by simp) (by simp) (by simp)
    simp [St.queue, St.timers, St.called, hc]
  | retIo hc | nextIo hc => exact absurd hc (h.noBatch.1 _)
  | retDep hc | nextDep hc => exact absurd hc (h.noBatch.2 _ _)

theorem timers_init (t0 : AbsTime) : Timers cfg (St.init t0) := by
  refine ⟨.refl, .nil, ?_, ?_, ?_, ?_, ?_, ?_, ?_, ?_, ?_⟩ <;> simp [St.init]

theorem timers_reaches (h : Reaches cfg clock (TimersOnly cfg clock) s) : Timers cfg s :=
  h.invariant timers_init fun _ _ _ hI ho hs => timers_step hI ho hs

/-- Whatever `select` answers to the iteration entered in `s`, the program is over and nothing is called. -/
def Fails (cfg : Cfg) (clock : Nat → AbsTime) (s : St) : Prop :=
  ∃ call s₁, step cfg clock s .enter = some s₁ ∧ s₁.ctl = .select call ∧ call.Answers .error ∧
    ∀ o, call.Answers o → ∃ s₂, step cfg clock s₁ (.wake o) = some s₂ ∧ s₂.ctl = .aborted ∧ s₂.called = s.called

theorem fails_of_far {r : Reg} {rs : List Reg} (h : Timers cfg s) (hc : s.ctl = .loop) (he : s.eventList = r :: rs)
    (hfar : ¬Near r.timeout (clock s.reads)) : Fails cfg clock s := by
  have hcall := selectCall_blockers r.timeout (clock s.reads) h.blocker
  have hv : ¬(sleepTimeval r.timeout (clock s.reads)).Valid := fun hv => hfar (sleepTimeval_valid.1 hv)
  refine ⟨_, _, enter_selecting hc he hcall, rfl, .inl hv, fun o ho => ?_⟩
  obtain ⟨-, hvalid⟩ | ⟨rfl, -⟩ := SelectCall.answers_blockers (fun _ => rfl) ho
  · exact absurd hvalid hv
  · exact ⟨_, rfl, rfl, rfl⟩

/-- The next registration is called, whatever `select` answers. -/
def Serves (cfg : Cfg) (clock : Nat → AbsTime) (s : St) : Prop :=
  ∀ call o, s.ctl = .select call → call.Answers o → ∃ r s', step cfg clock s (.wake o) = some s' ∧
    r ∈ s.regs ∧ r ∉ s.called ∧ s'.called = s.called ++ [r]

theorem Timers.serves (h : Timers cfg s) : Serves cfg clock s := by
  intro call o hc ha
  have hgood := h.run.good
  obtain ⟨hne, hsets, hv⟩ := h.select call hc
  obtain ⟨r, rs, he⟩ := List.exists_cons_of_ne_nil hne
  obtain ⟨rfl, -⟩ | ⟨-, hnv⟩ := SelectCall.answers_blockers hsets ha
  · have hmem : r ∈ s.queue.waiting := by
      show r ∈ s.timers
      rw [timers_of_ne (by simp [hc]), he]
      exact List.mem_cons_self
    refine ⟨r, timeoutPhase s r, by simp [step, hc, wake, he], hgood.mem_added.2 (.inr hmem), ?_, ?_⟩
    · intro hcalled
      exact lt_irrefl _ (hgood.behind r hcalled r hmem)
    · simp [St.called, timeoutPhase, St.invoke]
  · exact absurd hv hnv

/-- `periodic.cc` beside a second timer with the deadline of its second round. -/
def tiesRun : List Input :=
  [.waitFor 0 10 0 0, .waitFor 0 20 0 0, .ret, .enter, .wake .timeout, .waitFor 0 20 0 0, .ret,
    .enter, .wake .timeout, .ret, .enter, .wake .timeout, .ret, .enter]

/-- A timer 2³¹ s ahead. -/
def farRun : List Input := [.waitFor 0 (2 ^ 31 * offset) 0 0, .ret, .enter]

end Posix
