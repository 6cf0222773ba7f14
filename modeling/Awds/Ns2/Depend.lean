import Awds.Ns2.Invariant

/-!
# A registration on a `DependHandle` is completed one way

By `complied` through `pendingList`, or by its timer. The state is spread over the handle's status,
its timer and the entries of `pendingList`; `DependInv` ties them together. It needs three things of a
run (`DependOk`): no `waitFor` on a handle between `complied` and the call of its entry, when its
timer is still `TIMER_PENDING`; no timer expiring in that time; and no `complied` that finds `Blocked`
before the first `waitFor`, as `Handle` does not initialise `status`. The second is what a drain by
every entry point would give, but `expire` and `gea_start` do not drain `pendingList`.
-/

namespace Ns2

open Gea

/-- `waitFor` on a `DependHandle` finds its timer not `TIMER_PENDING`, its timer does not expire while
an entry for it is pending, and `complied` on a handle that reads `Blocked` comes after a `waitFor`. -/
def DependOk (cfg : Cfg) (s : St) : Input → Prop
  | .waitFor h _ _ _ => cfg.kind h = .depend → s.timer h ≠ .pending
  | .dispatch x => match x.ev with
    | .timer h => cfg.kind h = .depend → ∀ p ∈ s.pendingList, p.reg.h ≠ h
    | _ => True
  | .complied d => s.status d = .blocked → (s.slot d).isSome = true
  | _ => True

instance (cfg : Cfg) (s : St) : (i : Input) → Decidable (DependOk cfg s i)
  | .waitFor h _ _ _ => inferInstanceAs (Decidable (cfg.kind h = .depend → s.timer h ≠ .pending))
  | .dispatch ⟨_, .timer h⟩ => inferInstanceAs (Decidable (cfg.kind h = .depend → ∀ p ∈ s.pendingList, p.reg.h ≠ h))
  | .dispatch ⟨_, .gea _⟩ => isTrue trivial
  | .complied d => inferInstanceAs (Decidable (s.status d = .blocked → (s.slot d).isSome = true))
  | .start _ | .advance _ | .arrive _ | .ret => isTrue trivial

/-- The registrations on `DependHandle`s, among `l`. -/
def onDepend (cfg : Cfg) (l : List Reg) : List Reg := l.filter (cfg.kind ·.h = .depend)

/-- Each registration on a `DependHandle` is called at most once, a pending entry cancels the timer
of its own registration, and no assertion or timer of a `DependHandle` fails. -/
structure OneWay (cfg : Cfg) (s : St) : Prop where
  once : (onDepend cfg s.called).Nodup
  cancels : ∀ c ∈ s.cancels, c.2 = some c.1
  sound : ∀ f ∈ s.failed, ∀ h ∈ f.handle?, cfg.kind h ≠ .depend

/-- The handle status, the timer and `pendingList` agree. -/
structure DependInv (cfg : Cfg) (s : St) : Prop where
  oneWay : OneWay cfg s
  nodup : (s.entries.map (·.reg.h)).Nodup
  entry : ∀ p ∈ s.entries, s.timer p.reg.h = .pending ∧ s.slot p.reg.h = some p.reg ∧ s.status p.reg.h = .ready
  blocked : ∀ h, cfg.kind h = .depend → s.status h = .blocked → (s.slot h).isSome = true → s.timer h = .pending
  waiting : ∀ h, cfg.kind h = .depend → s.timer h = .pending → ∃ r, s.slot h = some r ∧ r ∉ s.called

variable {cfg : Cfg} {s s' : St}

theorem onDepend_append_self {l : List Reg} {r : Reg} (h : cfg.kind r.h = .depend) :
    onDepend cfg (l ++ [r]) = onDepend cfg l ++ [r] := by simp [onDepend, h]

theorem onDepend_append_ne {l : List Reg} {r : Reg} (h : cfg.kind r.h ≠ .depend) :
    onDepend cfg (l ++ [r]) = onDepend cfg l := by simp [onDepend, h]

/-- What `DependHandle`s see does not change; other callbacks may be called. -/
theorem DependInv.other (hI : DependInv cfg s) (hw : Wf cfg s)
    (hst : ∀ h, cfg.kind h = .depend → s'.status h = s.status h)
    (hsl : ∀ h, cfg.kind h = .depend → s'.slot h = s.slot h)
    (ht : ∀ h, cfg.kind h = .depend → s'.timer h = s.timer h) (he : s'.entries.Perm s.entries)
    (hl : onDepend cfg s'.called = onDepend cfg s.called) (hc : s'.cancels = s.cancels)
    (hf : ∀ f ∈ s'.failed, f ∈ s.failed ∨ ∀ h ∈ f.handle?, cfg.kind h ≠ .depend) : DependInv cfg s' := by
  refine ⟨⟨hl ▸ hI.oneWay.once, hc ▸ hI.oneWay.cancels, fun f hf' => ?_⟩, ?_, fun p hp => ?_, fun h hk hb hse => ?_,
    fun h hk hp => ?_⟩
  · rcases hf f hf' with h | h
    · exact hI.oneWay.sound f h
    · exact h
  · exact ((he.map _).nodup_iff).2 hI.nodup
  · have hp' := he.mem_iff.1 hp
    have hk := (hw.entries p hp').1
    rw [ht _ hk, hsl _ hk, hst _ hk]
    exact hI.entry p hp'
  · rw [ht h hk]; exact hI.blocked h hk (hst h hk ▸ hb) (hsl h hk ▸ hse)
  · obtain ⟨r, hr, hn⟩ := hI.waiting h hk (ht h hk ▸ hp)
    refine ⟨r, hsl h hk ▸ hr, fun hm => hn ?_⟩
    have hrk : cfg.kind r.h = .depend := hw.slot_h hr ▸ hk
    have : r ∈ onDepend cfg s'.called := List.mem_filter.2 ⟨hm, by simpa using hrk⟩
    rw [hl] at this
    exact (List.mem_filter.1 this).1

/-- The waiting registration of a `DependHandle` is called, by its timer or for its entry: the timer
is not pending any more and the entry, if any, is gone. -/
theorem DependInv.calls {r : Reg} (hI : DependInv cfg s) (hw : Wf cfg s) (hk : cfg.kind r.h = .depend)
    (hp : s.timer r.h = .pending) (hsl : s.slot r.h = some r) (hslot : s'.slot = s.slot)
    (ht : s'.timer r.h ≠ .pending) (hst : s'.status r.h ≠ .blocked)
    (hto : ∀ h, h ≠ r.h → s'.timer h = s.timer h) (hso : ∀ h, h ≠ r.h → s'.status h = s.status h)
    (he : s'.entries.Sublist s.entries) (hne : ∀ p ∈ s'.entries, p.reg.h ≠ r.h)
    (hl : s'.called = s.called ++ [r]) (hc : ∀ c ∈ s'.cancels, c ∈ s.cancels ∨ c = (r, some r))
    (hf : s'.failed = s.failed) : DependInv cfg s' := by
  obtain ⟨r', hr', hn⟩ := hI.waiting r.h hk hp
  rw [hsl] at hr'
  cases hr'
  refine ⟨⟨?_, fun c hc' => ?_, hf ▸ hI.oneWay.sound⟩, ?_, fun p hp' => ?_, fun h hkh hb hse => ?_, fun h hkh hp' => ?_⟩
  · rw [hl, onDepend_append_self hk]
    refine List.nodup_append.2 ⟨hI.oneWay.once, by simp, fun a ha b hb => ?_⟩
    rw [List.mem_singleton] at hb
    rintro rfl
    exact hn (hb ▸ (List.mem_filter.1 ha).1)
  · rcases hc c hc' with hc' | rfl
    · exact hI.oneWay.cancels c hc'
    · rfl
  · exact (he.map _).nodup hI.nodup
  · rw [hto _ (hne p hp'), hso _ (hne p hp'), hslot]
    exact hI.entry p (he.subset hp')
  · by_cases hh : h = r.h
    · subst hh; exact absurd hb hst
    · rw [hto h hh]; exact hI.blocked h hkh (hso h hh ▸ hb) (hslot ▸ hse)
  · by_cases hh : h = r.h
    · subst hh; exact absurd hp' ht
    · obtain ⟨x, hx, hxn⟩ := hI.waiting h hkh (hto h hh ▸ hp')
      refine ⟨x, hslot ▸ hx, ?_⟩
      rw [hl, List.mem_append, List.mem_singleton]
      rintro (hm | rfl)
      · exact hxn hm
      · exact hh (hw.slot_h hx).symm

theorem DependInv.activate {k : Handle} {t : AbsTime} {e : Event} {d : Data} (hI : DependInv cfg s) (hw : Wf cfg s)
    (hp : s.timer k ≠ .pending) :
    DependInv cfg ((s.register ⟨s.regs.length, k, t, e, d⟩).activate ⟨s.regs.length, k, t, e, d⟩) := by
  have hne : ∀ p ∈ s.entries, p.reg.h ≠ k := fun p hp' he => hp (he ▸ (hI.entry p hp').1)
  unfold St.activate
  dsimp only
  rw [if_neg (show ¬(s.register ⟨s.regs.length, k, t, e, d⟩).timer k = .pending from hp)]
  refine ⟨⟨hI.oneWay.once, hI.oneWay.cancels, hI.oneWay.sound⟩, hI.nodup, fun p hp' => ?_, fun h hk hb hse => ?_,
    fun h hk hp' => ?_⟩
  · simp only [St.resched, St.register, Function.update_of_ne (hne p hp')]
    exact hI.entry p hp'
  · simp only [St.resched, St.register, Function.update_apply] at hb hse ⊢
    split
    · rfl
    · rename_i hh
      rw [if_neg hh] at hb hse
      exact hI.blocked h hk hb hse
  · simp only [St.resched, St.register, Function.update_apply] at hp' ⊢
    split
    · exact ⟨_, rfl, fun hm => hw.fresh rfl (hw.called _ hm)⟩
    · rename_i hh
      rw [if_neg hh] at hp'
      exact hI.waiting h hk hp'

theorem DependInv.trigger {d : Handle} {r : Reg} (hI : DependInv cfg s) (hw : Wf cfg s) (hk : cfg.kind d = .depend)
    (hb : s.status d = .blocked) (hsl : s.slot d = some r) : DependInv cfg (s.trigger d r) := by
  have hr : r.h = d := hw.slot_h hsl
  have hne : ∀ p ∈ s.entries, p.reg.h ≠ d := fun p hp he => by
    have := (hI.entry p hp).2.2
    rw [he, hb] at this; cases this
  have hent : (s.trigger d r).entries = s.entries ++ [⟨r, s.lastEventTime⟩] := by
    simp [St.entries, St.trigger]
  refine ⟨⟨hI.oneWay.once, hI.oneWay.cancels, hI.oneWay.sound⟩, ?_, fun p hp => ?_, fun h hkh hbh hse => ?_, hI.waiting⟩
  · rw [hent, List.map_append, List.map_singleton]
    refine List.nodup_append.2 ⟨hI.nodup, by simp, fun a ha b hb' => ?_⟩
    rw [List.mem_singleton] at hb'
    obtain ⟨p, hp, rfl⟩ := List.mem_map.1 ha
    rw [hb', hr]; exact hne p hp
  · rw [hent, List.mem_append, List.mem_singleton] at hp
    rcases hp with hp | rfl
    · simp only [St.trigger, Function.update_of_ne (hne p hp)]
      exact hI.entry p hp
    · simp only [St.trigger, hr, Function.update_self, and_true]
      exact ⟨hI.blocked d hk hb (Option.isSome_iff_exists.2 ⟨r, hsl⟩), hsl⟩
  · simp only [St.trigger, Function.update_apply] at hbh ⊢
    split at hbh
    · cases hbh
    · exact hI.blocked h hkh hbh hse

theorem dependInv_step {i : Input} (hw : Wf cfg s) (hI : DependInv cfg s) (ho : DependOk cfg s i)
    (hs : Step cfg s i s') : DependInv cfg s' := by
  have hup : ∀ {α : Type} (f : Handle → α) {k : Handle} (v : α), cfg.kind k ≠ .depend →
      ∀ h, cfg.kind h = .depend → Function.update f k v h = f h := fun f k v hk h hh =>
    Function.update_of_ne (fun he => hk (by rw [← he]; exact hh)) v f
  have hid : ∀ {α : Type} (f : Handle → α), ∀ h, cfg.kind h = .depend → f h = f h := fun _ _ _ => rfl
  have hsame : ∀ f ∈ s.failed, f ∈ s.failed ∨ ∀ h ∈ f.handle?, cfg.kind h ≠ .depend := fun _ hf => .inl hf
  -- a failure of another handle
  have hfail : ∀ {g : Failure}, (∀ h ∈ g.handle?, cfg.kind h ≠ .depend) →
      ∀ f ∈ some g, f ∈ s.failed ∨ ∀ h ∈ f.handle?, cfg.kind h ≠ .depend := fun hg f hf => by
    cases hf; exact .inr hg
  have hnil : s.stack = [] → s.entries = s.pendingList := fun hs => by simp [St.entries, hs]
  cases hs with
  | start | advance => exact hI.other hw (hid _) (hid _) (hid _) (.refl _) rfl rfl hsame
  | ignored | notBlocked => exact hI
  | @ret f fs hs hf =>
    refine hI.other hw (hid _) (hid _) (hid _) ?_ rfl rfl hsame
    rw [entries_cons hs]
    cases f <;> first | exact .refl _ | cases hf
  | backwards => exact hI.other hw (hid _) (hid _) (hid _) (.refl _) rfl rfl (hfail (by simp [Failure.handle?]))
  | @handle x r _ hx _ he =>
    have hr : cfg.kind r.h ≠ .depend := by rw [(hw.gea x hx r he).1]; simp
    exact hI.other hw (hid _) (hid _) (hid _) (.refl _)
      ((congrArg (onDepend cfg) (called_call ..)).trans (onDepend_append_ne hr)) rfl hsame
  | sanity _ hx he ht => exact absurd (hw.timers.pending hx he) ht
  | @unset x k _ _ _ ht hk hsl =>
    obtain ⟨r, hr, -⟩ := hI.waiting k hk ht
    rw [hsl] at hr; cases hr
  | @expire x k r hs _ _ he ht hk hsl =>
    obtain rfl := hw.slot_h hsl
    simp only [DependOk, he] at ho
    refine hI.calls hw hk ht hsl rfl (by simp [St.expired, St.call]) (by simp [St.expired, St.call])
      (fun h hh => Function.update_of_ne hh _ _) (fun h hh => Function.update_of_ne hh _ _) (.refl _)
      (fun p hp => ho hk p (hnil hs ▸ hp)) (called_call ..) (fun c hc => .inl hc) rfl
  | @noEvent x k _ _ _ _ hk _ =>
    exact hI.other hw (hid _) (hid _) (hup _ _ hk) (.refl _) rfl rfl (hfail (by simpa [Failure.handle?] using hk))
  | @doTimeout x k r _ _ _ _ hk hsl =>
    exact hI.other hw (hup _ _ hk) (hup _ _ hk) (hup _ _ hk) (.refl _)
      ((congrArg (onDepend cfg) (called_call ..)).trans (onDepend_append_ne (hw.slot_h hsl ▸ hk))) rfl hsame
  | @insane k hk _ | @cancel k hk _ _ =>
    exact hI.other hw (hid _) (hid _) (hid _) (.refl _) rfl rfl (hfail (by simp [Failure.handle?, hk]))
  | @noHandler k hk _ hp _ =>
    have hk' : cfg.kind k ≠ .depend := by rw [hk]; simp
    simp only [St.cancel, if_pos hp]
    exact hI.other hw (hup _ _ hk') (hid _) (hup _ _ hk') (.refl _) rfl rfl (hfail (by simpa [Failure.handle?] using hk'))
  | @receive k r _ hk _ _ hsl =>
    have hk' : cfg.kind k ≠ .depend := by rw [hk]; simp
    exact hI.other hw (hup _ _ hk') (hup _ _ hk') (hup _ _ hk') (.refl _)
      ((congrArg (onDepend cfg) (called_call ..)).trans (onDepend_append_ne (hw.slot_h hsl ▸ hk'))) rfl hsame
  | @blocker k t e d _ hk =>
    exact hI.other hw (hup _ _ (by rw [hk]; simp)) (hid _) (hid _) (.refl _) rfl rfl hsame
  | @activate k t e d _ hk => exact hI.activate hw (ho hk)
  | @setupEvent k t e d _ hk =>
    have hk' : cfg.kind k ≠ .depend := by rw [hk]; simp
    exact hI.other hw (hup _ _ hk') (hup _ _ hk') (hup _ _ hk') (.refl _) rfl rfl hsame
  | @write k t e d _ hk =>
    have hk' : cfg.kind k ≠ .depend := by rw [hk]; simp
    exact hI.other hw (hup _ _ hk') (hid _) (hid _) (.refl _)
      ((congrArg (onDepend cfg) (called_call ..)).trans (onDepend_append_ne hk')) rfl hsame
  | uninitialised hk hb hsl =>
    have hset := ho hb
    rw [hsl] at hset; cases hset
  | complied _ hk hb hsl => exact hI.trigger hw hk hb hsl

theorem dependInv_unwind (hw : Wf cfg s) (hI : DependInv cfg s) (hu : Unwind s s') : DependInv cfg s' := by
  have hid : ∀ {α : Type} (f : Handle → α), ∀ h, cfg.kind h = .depend → f h = f h := fun _ _ _ => rfl
  have hsame : ∀ f ∈ s.failed, f ∈ s.failed ∨ ∀ h ∈ f.handle?, cfg.kind h ≠ .depend := fun _ hf => .inl hf
  cases hu with
  | @pop f fs hs hf =>
    refine hI.other hw (hid _) (hid _) (hid _) ?_ rfl rfl hsame
    rw [entries_cons hs]
    rcases hf with ⟨h, rfl⟩ | ⟨h, rfl⟩ <;> exact .refl _
  | @timer k fs hs =>
    have hpop : DependInv cfg { s with stack := fs } := hI.other hw (hid _) (hid _) (hid _)
      (by rw [entries_cons hs]; exact .refl _) rfl rfl hsame
    unfold St.settle
    split
    · rename_i hn
      refine ⟨⟨hpop.oneWay.once, hpop.oneWay.cancels, hpop.oneWay.sound⟩, hpop.nodup, fun p hp => ?_,
        fun h hk hb hse => ?_, fun h hk hp => ?_⟩
      · have hent := hpop.entry p hp
        have hne : p.reg.h ≠ k := fun he => by
          have := hent.1; simp only [he, hn] at this; cases this
        exact ⟨(Function.update_of_ne hne _ _).trans hent.1, hent.2⟩
      · have hp := hpop.blocked h hk hb hse
        have hne : h ≠ k := fun he => by simp only [he, hn] at hp; cases hp
        exact (Function.update_of_ne hne _ _).trans hp
      · have hne : h ≠ k := fun he => by simp [he] at hp
        exact hpop.waiting h hk (by simpa only [Function.update_of_ne hne] using hp)
    · exact hpop
  | done hs hf hp =>
    refine hI.other hw (hid _) (hid _) (hid _) ?_ rfl rfl hsame
    rw [entries_cons hs, drains_todo hf]; exact .refl _
  | @take f fs t p todo hs hf hp =>
    refine hI.other hw (hid _) (hid _) (hid _) ?_ rfl rfl hsame
    rw [entries_cons hs, drains_todo hf, hp]
    simp only [St.entries, todos_cons, Frame.todo, List.append_nil, List.nil_append]
    exact List.perm_append_comm
  | @run t p todo fs hs hp =>
    have hcons : s.entries = p :: (todo ++ (todos fs ++ s.pendingList)) := entries_cons hs
    have hent : (s.run t p (.pend t todo :: fs)).entries = todo ++ (todos fs ++ s.pendingList) := by
      simp [St.run, St.remove, Frame.todo]
    have hmem : p ∈ s.entries := hcons ▸ List.mem_cons_self
    obtain ⟨-, hsl, hst⟩ := hI.entry p hmem
    have hnd := hI.nodup
    rw [hcons, List.map_cons, List.nodup_cons] at hnd
    refine hI.calls hw (hw.entries p hmem).1 hp hsl rfl (by simp [St.run, St.call]) ?_
      (fun h hh => Function.update_of_ne hh _ _) (fun h hh => rfl) (by rw [hent, hcons]; exact List.sublist_cons_self _ _)
      (fun q hq he => hnd.1 ?_) (called_call ..) (fun c hc => ?_) rfl
    · change s.status p.reg.h ≠ .blocked; rw [hst]; simp
    · rw [hent] at hq; rw [← he]; exact List.mem_map_of_mem hq
    · simp only [St.run, St.call, List.mem_append, List.mem_singleton] at hc
      rw [hsl] at hc; exact hc
  | @stuck t p todo fs hs hp =>
    exact absurd (hI.entry p (by rw [entries_cons hs]; exact List.mem_cons_self)).1 hp

theorem dependInv_init (status : Handle → Status) : DependInv cfg (St.init status) := by
  refine ⟨⟨.nil, ?_, ?_⟩, .nil, ?_, ?_, ?_⟩ <;> simp [St.init, St.entries]

/-- **One registration, one completion.** Whatever `Handle::status` holds at first: when no `waitFor`
finds its `DependHandle`'s timer pending, no timer expires while an entry for its handle is pending and no
`complied` finds `Blocked` before the first `waitFor`, every registration on a `DependHandle` is called at
most once, by `complied` or by its timer, an entry cancels its own registration's timer, and no assertion
or timer of a `DependHandle` fails. -/
theorem depend_one_way (cfg : Cfg) (s : St) (hs : Reaches cfg (DependOk cfg) s) : OneWay cfg s := by
  obtain ⟨-, hI⟩ := hs.invariant_wf dependInv_init
    (fun t i u hwf hI ho hstep => dependInv_step hwf hI ho hstep) fun t u hwf hI hun => dependInv_unwind hwf hI hun
  exact hI.oneWay

/-- No `waitFor` on a `DependHandle` that is still `Blocked`. -/
def NotBlocked (cfg : Cfg) (s : St) : Input → Prop
  | .waitFor h _ _ _ => cfg.kind h = .depend → s.status h ≠ .blocked
  | _ => True

instance (cfg : Cfg) (s : St) : (i : Input) → Decidable (NotBlocked cfg s i)
  | .waitFor h _ _ _ => inferInstanceAs (Decidable (cfg.kind h = .depend → s.status h ≠ .blocked))
  | .start _ | .advance _ | .dispatch _ | .arrive _ | .complied _ | .ret => isTrue trivial

/-- Two `DependHandle`s and a `Blocker`. The timer of handle 1 expires and its callback calls
`complied` on handle 2; nobody drains `pendingList` before the timer of handle 2 expires too. -/
def undrainedRun : List Input :=
  [.start 1, .waitFor 1 10 0 0, .waitFor 2 20 0 0, .waitFor 0 30 0 0, .ret, .dispatch ⟨10, .timer 1⟩, .complied 2, .ret,
    .dispatch ⟨20, .timer 2⟩, .ret, .dispatch ⟨30, .gea ⟨2, 0, 30, 0, 0⟩⟩, .ret]

/-- The registration on handle 2 was called by its timer, and its entry then fails the assertion of
`doPendingEvents`. -/
theorem undrained_entry_fails : ¬∀ cfg s, Reaches cfg (NotBlocked cfg) s → OneWay cfg s := by
  intro h
  have hfail := (h sampleCfg _ (reaches_get undrainedRun (by decide))).sound (.notPending 2) (by decide) 2 rfl
  exact hfail rfl

theorem depend_one_way_drained :
    OneWay sampleCfg ((Lts.execOk (step sampleCfg) (DependOk sampleCfg) St.fresh
      [.start 1, .waitFor 1 10 0 0, .waitFor 0 5 0 0, .ret, .dispatch ⟨5, .gea ⟨1, 0, 5, 0, 0⟩⟩, .complied 1, .ret,
        .waitFor 1 15 0 0, .ret, .dispatch ⟨15, .timer 1⟩]).get (by decide)) :=
  depend_one_way sampleCfg _ (reaches_get _ (by decide))

/-- Where `status` reads `Blocked` at first, `complied` before the first `waitFor` reads `ShadowDepend::e`. -/
example : ¬OneWay sampleCfg ((Lts.execOk (step sampleCfg) Lts.Any (St.init fun _ => .blocked)
    [.start 1, .complied 1]).get (by decide)) :=
  fun h => h.sound (.uninitialised 1) rfl 1 rfl rfl

end Ns2
