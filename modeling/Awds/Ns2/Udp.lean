import Awds.Ns2.Invariant

/-!
# The read-mode `UdpHandle`

From the first `waitFor` on `status`, the stored event and the timer say the same thing in every
reachable state, also while callbacks run and nest (`Waits`); before it `status` is not initialised. Every
registration on the handle is called once, by a packet or by its timeout, or gave way to a later one, or
still waits (`account`).
-/

namespace Ns2

open Gea

/-- `status` is `Blocked`, `e` is set and `timeout_timer` is `TIMER_PENDING`, or none of them. -/
structure Waits (s : St) (h : Handle) : Prop where
  event : s.status h = .blocked ↔ (s.slot h).isSome = true
  timer : (s.slot h).isSome = true ↔ s.timer h = .pending

/-- A callback of a `UdpHandle` in read mode: a packet came, or the time is over. -/
def Invocation.Told (inv : Invocation) : Prop :=
  inv.path = .process_data ∧ inv.status = .ready ∨ inv.path = .do_timeout ∧ inv.status = .timeout

/-- The registrations on `h`, among `l`. -/
def on (h : Handle) (l : List Reg) : List Reg := l.filter (·.h = h)

/-- Packets for `h` arrive after the first `waitFor` on it. -/
def AfterWaitFor (h : Handle) (s : St) : Input → Prop
  | .arrive k => k = h → ∃ r ∈ s.regs, r.h = h
  | _ => True

instance (h : Handle) (s : St) : (i : Input) → Decidable (AfterWaitFor h s i)
  | .arrive k => inferInstanceAs (Decidable (k = h → ∃ r ∈ s.regs, r.h = h))
  | .start _ | .advance _ | .dispatch _ | .waitFor _ _ _ _ | .complied _ | .ret => isTrue trivial

section
variable {h : Handle} {l : List Reg} {r : Reg}

theorem on_append (l' : List Reg) : on h (l ++ l') = on h l ++ on h l' := List.filter_append ..

theorem on_concat_self (hr : r.h = h) : on h (l ++ [r]) = on h l ++ [r] := by simp [on, hr]

theorem on_concat_ne (hr : r.h ≠ h) : on h (l ++ [r]) = on h l := by simp [on, hr]

/-- A waiting registration moves to the replaced ones, and a new one waits in its place. -/
theorem perm_replace {called waiting replaced made : List Reg} (r : Reg)
    (hp : (called ++ waiting ++ replaced).Perm made) :
    (called ++ [r] ++ (replaced ++ waiting)).Perm (made ++ [r]) := by
  have h1 : (called ++ [r] ++ (replaced ++ waiting)).Perm (called ++ (waiting ++ replaced) ++ [r]) := by
    rw [List.append_assoc, List.append_assoc]
    refine List.Perm.append_left _ (List.perm_append_comm.trans ?_)
    exact List.perm_append_comm.append_right _
  rw [← List.append_assoc called] at h1
  exact h1.trans (hp.append_right _)

theorem on_toList_self {o : Option Reg} (ho : ∀ r, o = some r → r.h = h) : on h o.toList = o.toList := by
  cases o with
  | none => rfl
  | some r => simp [on, ho r rfl]

theorem on_toList_ne {o : Option Reg} (ho : ∀ r, o = some r → r.h ≠ h) : on h o.toList = [] := by
  cases o with
  | none => rfl
  | some r => simp [on, ho r rfl]

end

variable {cfg : Cfg} {status : Handle → Status} {s s' : St} {h : Handle}

/-- `status` was stored, or does not happen to read `Blocked`. -/
def Settled (status : Handle → Status) (s : St) (h : Handle) : Prop :=
  status h ≠ .blocked ∨ ∃ r ∈ s.regs, r.h = h

/-- `status` is what the handles' `status` holds at first. -/
structure UdpInv (status : Handle → Status) (s : St) (h : Handle) : Prop where
  event : Settled status s h → (s.status h = .blocked ↔ (s.slot h).isSome = true)
  timer : (s.slot h).isSome = true ↔ s.timer h = .pending
  known : ∀ r ∈ s.regs, r.h = h → s.status h ≠ .undefined
  sound : ∀ f, s.failed = some f → f.handle? ≠ some h
  told : ∀ inv ∈ s.log, inv.reg.h = h → inv.Told
  account : (on h s.called ++ (s.slot h).toList ++ on h s.replaced).Perm (on h s.regs)

/-- Nothing of `h` changes. The log may grow by other handles' callbacks, and the failure, if any, is
not one of `h`. -/
theorem UdpInv.other (hI : UdpInv status s h) (hst : s'.status h = s.status h) (hsl : s'.slot h = s.slot h)
    (ht : s'.timer h = s.timer h) (hr : on h s'.regs = on h s.regs) (hrep : on h s'.replaced = on h s.replaced)
    (hl : s'.log = s.log ∨ ∃ inv, s'.log = s.log ++ [inv] ∧ inv.reg.h ≠ h)
    (hf : s'.failed = s.failed ∨ ∃ f, s'.failed = some f ∧ f.handle? ≠ some h) : UdpInv status s' h := by
  have hcall : on h s'.called = on h s.called := by
    rcases hl with hl | ⟨inv, hl, hne⟩
    · rw [St.called, hl]; rfl
    · rw [St.called, hl, List.map_append, List.map_singleton, on_concat_ne hne]; rfl
  have hregs : ∀ r ∈ s'.regs, r.h = h → r ∈ s.regs := fun r hm hh => by
    have : r ∈ on h s.regs := hr ▸ List.mem_filter.2 ⟨hm, by simpa using hh⟩
    exact (List.mem_filter.1 this).1
  refine ⟨fun hset => ?_, by rw [hsl, ht]; exact hI.timer, fun r hm hh => ?_, fun f he => ?_, fun inv hm hh => ?_, ?_⟩
  · rw [hst, hsl]
    refine hI.event (hset.imp_right ?_)
    rintro ⟨r, hm, hh⟩
    exact ⟨r, hregs r hm hh, hh⟩
  · rw [hst]; exact hI.known r (hregs r hm hh) hh
  · rcases hf with hf | ⟨f', hf, hne⟩
    · exact hI.sound f (hf ▸ he)
    · rw [hf] at he; cases he; exact hne
  · rcases hl with hl | ⟨inv', hl, hne⟩
    · exact hI.told inv (hl ▸ hm) hh
    · rw [hl, List.mem_append, List.mem_singleton] at hm
      rcases hm with hm | rfl
      · exact hI.told inv hm hh
      · exact absurd hh hne
  · rw [hcall, hsl, hrep, hr]; exact hI.account

/-- The waiting registration of `h` is called. -/
theorem UdpInv.calls {r : Reg} {inv : Invocation} (hI : UdpInv status s h) (hsl : s.slot h = some r) (hrh : r.h = h)
    (hst : s'.status h ≠ .blocked ∧ s'.status h ≠ .undefined) (hsl' : s'.slot h = none)
    (ht : s'.timer h ≠ .pending) (hr : s'.regs = s.regs) (hrep : s'.replaced = s.replaced)
    (hl : s'.log = s.log ++ [inv]) (hinv : inv.reg = r) (htold : inv.Told) (hf : s'.failed = s.failed) :
    UdpInv status s' h := by
  have hcall : on h s'.called = on h s.called ++ [r] := by
    rw [St.called, hl, List.map_append, List.map_singleton, on_concat_self (by rw [hinv]; exact hrh), hinv]; rfl
  refine ⟨fun _ => by simp [hst.1, hsl'], by simp [hsl', ht], fun _ _ _ => hst.2, hf ▸ hI.sound, fun x hx hh => ?_, ?_⟩
  · rw [hl, List.mem_append, List.mem_singleton] at hx
    rcases hx with hx | rfl
    · exact hI.told x hx hh
    · exact htold
  · have := hI.account
    rw [hsl, Option.toList_some] at this
    rwa [hcall, hsl', hrep, hr, Option.toList_none, List.append_nil]

/-- `waitFor` on `h`: the registration waits, in the place of the one before it. -/
theorem UdpInv.setupEvent {t : AbsTime} {e : Event} {d : Data} (hI : UdpInv status s h) (hw : Wf cfg s) :
    UdpInv status ((s.register ⟨s.regs.length, h, t, e, d⟩).setupEvent ⟨s.regs.length, h, t, e, d⟩) h := by
  have hslot : on h (s.slot h).toList = (s.slot h).toList := on_toList_self fun r hr => hw.slot_h hr
  refine ⟨fun _ => ?_, ?_, fun _ _ _ => ?_, hI.sound, hI.told, ?_⟩
  · simp [St.setupEvent, St.resched, St.register]
  · simp [St.setupEvent, St.resched, St.register]
  · simp [St.setupEvent, St.resched, St.register]
  · simp only [St.setupEvent, St.resched, St.register, St.called, Function.update_self, Option.toList_some]
    rw [on_append, hslot, on_concat_self (show Reg.h ⟨s.regs.length, h, t, e, d⟩ = h from rfl)]
    exact perm_replace _ hI.account

theorem udpInv_step {i : Input} (hk : cfg.kind h = .udpRead) (hw : Wf cfg s) (hI : UdpInv status s h)
    (ho : AfterWaitFor h s i) (hs : Step cfg s i s') : UdpInv status s' h := by
  have hne : ∀ k, cfg.kind k ≠ .udpRead → k ≠ h := fun k hkk he => hkk (he ▸ hk)
  have hup : ∀ {α : Type} (f : Handle → α) {k : Handle} (v : α), k ≠ h → Function.update f k v h = f h :=
    fun f _ v hk => Function.update_of_ne (Ne.symm hk) v f
  cases hs with
  | start | advance | ret => exact hI.other rfl rfl rfl rfl rfl (.inl rfl) (.inl rfl)
  | backwards => exact hI.other rfl rfl rfl rfl rfl (.inl rfl) (.inr ⟨_, rfl, by simp [Failure.handle?]⟩)
  | ignored | notBlocked => exact hI
  | @handle x r _ hx _ he =>
    have hr := hne r.h (by rw [(hw.gea x hx r he).1]; simp)
    exact hI.other rfl rfl rfl rfl rfl (.inr ⟨_, rfl, hr⟩) (.inl rfl)
  | sanity _ hx he ht => exact absurd (hw.timers.pending hx he) ht
  | @unset x k _ _ _ _ hkk _ =>
    have hkh := hne k (by rw [hkk]; simp)
    exact hI.other rfl rfl (hup _ _ hkh) rfl rfl (.inl rfl) (.inl rfl)
  | @expire x k r _ _ _ _ _ hkk hsl =>
    have hkh := hne k (by rw [hkk]; simp)
    exact hI.other (hup _ _ hkh) rfl (hup _ _ hkh) rfl rfl (.inr ⟨_, rfl, hw.slot_h hsl ▸ hkh⟩) (.inl rfl)
  | @noEvent x k _ _ _ ht _ hsl =>
    have hkh : k ≠ h := by
      rintro rfl
      have := hI.timer.2 ht
      rw [hsl] at this; cases this
    exact hI.other rfl rfl (hup _ _ hkh) rfl rfl (.inl rfl) (.inr ⟨_, rfl, by simpa [Failure.handle?] using hkh⟩)
  | @doTimeout x k r _ _ _ ht _ hsl =>
    by_cases hkh : k = h
    · subst hkh
      have hrh := hw.slot_h hsl
      exact hI.calls hsl hrh (by simp [St.timedOut, St.call]) (by simp [St.timedOut, St.call])
        (by simp [St.timedOut, St.call]) rfl rfl rfl rfl (.inr ⟨rfl, by simp [hrh]⟩) rfl
    · exact hI.other (hup _ _ hkh) (hup _ _ hkh) (hup _ _ hkh) rfl rfl
        (.inr ⟨_, rfl, hw.slot_h hsl ▸ hkh⟩) (.inl rfl)
  | @insane k _ ht =>
    have hkh : k ≠ h := by
      rintro rfl
      obtain ⟨r, hr, hrh⟩ := ho rfl
      exact hI.known r hr hrh ht
    exact hI.other rfl rfl rfl rfl rfl (.inl rfl) (.inr ⟨_, rfl, by simpa [Failure.handle?] using hkh⟩)
  | @cancel k _ ht hp =>
    have hkh : k ≠ h := by
      rintro rfl
      exact hp (hI.timer.1 ((hI.event (.inr (ho rfl))).1 ht))
    exact hI.other rfl rfl rfl rfl rfl (.inl rfl) (.inr ⟨_, rfl, by simpa [Failure.handle?] using hkh⟩)
  | @noHandler k _ ht hp hsl =>
    have hkh : k ≠ h := by
      rintro rfl
      have := (hI.event (.inr (ho rfl))).1 ht
      rw [hsl] at this; cases this
    simp only [St.cancel, if_pos hp]
    exact hI.other (hup _ _ hkh) rfl (hup _ _ hkh) rfl rfl (.inl rfl)
      (.inr ⟨_, rfl, by simpa [Failure.handle?] using hkh⟩)
  | @receive k r _ _ _ _ hsl =>
    by_cases hkh : k = h
    · subst hkh
      have hrh := hw.slot_h hsl
      exact hI.calls hsl hrh (by simp [St.received, St.call]) (by simp [St.received, St.call])
        (by simp [St.received, St.call]) rfl rfl rfl rfl (.inl ⟨rfl, by simp [hrh]⟩) rfl
    · exact hI.other (hup _ _ hkh) (hup _ _ hkh) (hup _ _ hkh) rfl rfl
        (.inr ⟨_, rfl, hw.slot_h hsl ▸ hkh⟩) (.inl rfl)
  | @blocker k t e d _ hkk =>
    have hkh := hne k (by rw [hkk]; simp)
    exact hI.other (hup _ _ hkh) rfl rfl (on_concat_ne hkh) rfl (.inl rfl) (.inl rfl)
  | @activate k t e d _ hkk =>
    have hkh := hne k (by rw [hkk]; simp)
    unfold St.activate
    dsimp only
    split
    · exact hI.other (hup _ _ hkh) (hup _ _ hkh) rfl (on_concat_ne hkh) rfl (.inl rfl)
        (.inr ⟨_, rfl, by simpa [Failure.handle?] using hkh⟩)
    · exact hI.other (hup _ _ hkh) (hup _ _ hkh) (hup _ _ hkh) (on_concat_ne hkh) rfl (.inl rfl) (.inl rfl)
  | @setupEvent k t e d _ _ =>
    by_cases hkh : k = h
    · subst hkh; exact hI.setupEvent hw
    · have hold : on h (s.slot k).toList = [] := on_toList_ne fun r hr he => hkh (by rw [← hw.slot_h hr, he])
      refine hI.other (hup _ _ hkh) (hup _ _ hkh) (hup _ _ hkh) (on_concat_ne hkh) ?_ (.inl rfl) (.inl rfl)
      simp only [St.setupEvent, St.resched, St.register]
      rw [on_append, hold, List.append_nil]
  | @write k t e d _ hkk =>
    have hkh := hne k (by rw [hkk]; simp)
    exact hI.other (hup _ _ hkh) rfl rfl (on_concat_ne hkh) rfl (.inr ⟨_, rfl, hkh⟩) (.inl rfl)
  | @uninitialised d hkk _ _ =>
    have hkh := hne d (by rw [hkk]; simp)
    exact hI.other rfl rfl rfl rfl rfl (.inl rfl) (.inr ⟨_, rfl, by simpa [Failure.handle?] using hkh⟩)
  | @complied d r _ hkk _ _ =>
    have hkh := hne d (by rw [hkk]; simp)
    exact hI.other (hup _ _ hkh) rfl rfl rfl rfl (.inl rfl) (.inl rfl)

theorem udpInv_unwind (hk : cfg.kind h = .udpRead) (hw : Wf cfg s) (hI : UdpInv status s h) (hu : Unwind s s') :
    UdpInv status s' h := by
  have hdep : ∀ p ∈ s.entries, p.reg.h ≠ h := fun p hp he => by
    have := (hw.entries p hp).1
    rw [he, hk] at this; cases this
  cases hu with
  | pop | done | take => exact hI.other rfl rfl rfl rfl rfl (.inl rfl) (.inl rfl)
  | @timer k fs hs =>
    unfold St.settle
    split
    · rename_i hn
      by_cases hkh : k = h
      · subst hkh
        refine ⟨hI.event, ?_, hI.known, hI.sound, hI.told, hI.account⟩
        have := hI.timer
        simp only [hn, reduceCtorEq, iff_false] at this
        simp [this]
      · exact hI.other rfl rfl (Function.update_of_ne (Ne.symm hkh) _ _) rfl rfl (.inl rfl) (.inl rfl)
    · exact hI.other rfl rfl rfl rfl rfl (.inl rfl) (.inl rfl)
  | @run t p todo fs hs _ =>
    have hp := hdep p (by simp [St.entries, hs, Frame.todo])
    exact hI.other rfl rfl (Function.update_of_ne (Ne.symm hp) _ _) rfl rfl (.inr ⟨_, rfl, hp⟩) (.inl rfl)
  | @stuck t p todo fs hs _ =>
    have hp := hdep p (by simp [St.entries, hs, Frame.todo])
    exact hI.other rfl rfl rfl rfl rfl (.inl rfl) (.inr ⟨_, rfl, by simpa [Failure.handle?] using hp⟩)

theorem udpInv_init (status : Handle → Status) (h : Handle) : UdpInv status (St.init status) h := by
  refine ⟨?_, ?_, ?_, ?_, ?_, .refl _⟩
  · rintro (hne | ⟨r, hr, -⟩)
    · simpa [St.init] using hne
    · cases hr
  all_goals simp [St.init]

/-- **The read-mode `UdpHandle`.** Whatever the callbacks, the packets and the timers do: from the first
`waitFor` on (and before it, unless the uninitialised `status` reads `Blocked`) status, event and timer agree;
no assertion and no timer of the handle fails; a callback finds `Ready` for a packet and `Timeout` for its
deadline; and the registrations called, waiting and replaced are, each once, those made. -/
theorem udp_read_handle (cfg : Cfg) (h : Handle) (hk : cfg.kind h = .udpRead) (status : Handle → Status) (s : St)
    (hs : Lts.Reach (step cfg) (AfterWaitFor h) (St.init status) s) :
    (status h ≠ .blocked ∨ (∃ r ∈ s.regs, r.h = h) → Waits s h) ∧ (∀ f, s.failed = some f → f.handle? ≠ some h) ∧
      (∀ inv ∈ s.log, inv.reg.h = h → inv.Told) ∧
      (on h s.called ++ (s.slot h).toList ++ on h s.replaced).Perm (on h s.regs) ∧ s.regs.Nodup := by
  obtain ⟨hwf, hI⟩ := reach_invariant_wf (I := fun s => UdpInv status s h) hs (udpInv_init status h)
    (fun t i u hwf hI ho hstep => udpInv_step hk hwf hI ho hstep) fun t u hwf hI hun => udpInv_unwind hk hwf hI hun
  exact ⟨fun hset => ⟨hI.event hset, hI.timer⟩, hI.sound, hI.told, hI.account, hwf.regs_nodup⟩

/-- `HidStRecv`: wait for a packet, and in the callback for the next one, which does not come. -/
def recvRun : List Input :=
  [.start 1, .waitFor 3 10 0 0, .ret, .advance 4, .arrive 3, .waitFor 3 14 0 0, .ret, .dispatch ⟨14, .timer 3⟩]

theorem udp_read_handle_recv :
    let s := (Lts.execOk (step sampleCfg) (AfterWaitFor 3) (St.init fun _ => .blocked) recvRun).get (by decide)
    Waits s 3 ∧ (∀ f, s.failed = some f → f.handle? ≠ some 3) ∧ (∀ inv ∈ s.log, inv.reg.h = 3 → inv.Told) ∧
      (on 3 s.called ++ (s.slot 3).toList ++ on 3 s.replaced).Perm (on 3 s.regs) ∧ s.regs.Nodup := by
  intro s
  obtain ⟨hwaits, hrest⟩ := udp_read_handle sampleCfg 3 rfl (fun _ => .blocked) s (Lts.reach_get recvRun (by decide))
  exact ⟨hwaits (.inr (by decide)), hrest⟩

end Ns2
