import Awds.Posix.Clock

/-!
# The event time

A callback of the timeout branch is called with its deadline, one of a batch with the current time.
`event_time`: when `gettimeofday` does not go back, `select` answers 0 only after its `timeval` has
passed on it and no callback registers a deadline before its own time (`Timely`), the event time goes
back in two places only. An overdue deadline is dispatched with its nominal time, however many
descriptor or dependency callbacks have seen a later clock since. And the clock may still be short of
a deadline when `select` returns: `double2Timeval` cuts the sleep down to microseconds, and
`getCurrentTime` counts 268 ticks for each of them.
-/

namespace Posix

open Gea

/-- `a` is not after `b`, or by less than what 999999 microseconds fall short of a second (1.63 ms). -/
def Within (a b : AbsTime) : Prop := a - b < offset - 999999 * tickPerMicro

/-- The time `t` is not before the callback `a`, up to what `select` may return early. -/
def NotBefore (a : Invocation) (t : AbsTime) : Prop :=
  match a.phase with
  | .timeout => Within a.t t
  | _ => a.t ≤ t

/-- `a` was called before `b`, and their event times are in order, except that a `Timeout` callback
may follow a descriptor or dependency callback with a later event time. -/
def InOrder (a b : Invocation) : Prop :=
  match b.phase with
  | .timeout => a.phase = .timeout → Within a.t b.t
  | _ => NotBefore a b.t

/-- Successive `Timeout` callbacks are in the order of their deadlines. -/
def Successive (a b : Invocation) : Prop := a.phase = .timeout → b.phase = .timeout → a.t ≤ b.t

/-- What the event time of a run is promised. -/
structure St.EventTime (s : St) : Prop where
  inOrder : s.log.Pairwise InOrder
  successive : s.log.IsChain Successive
  nominal : ∀ inv ∈ s.log, inv.phase = .timeout → inv.t = inv.reg.timeout
  lastEventTime : ∀ inv ∈ s.log.getLast?, s.lastEventTime = inv.t

/-- `select` answers 0 to a time it takes, and only after that has passed since the reading at the head of
the loop; and a callback registers no deadline before its own time. -/
def Timely (tod : Nat → Timeval) (s : St) : Input → Prop
  | .wake .timeout => match s.ctl with
    | .select call => call.Answers .timeout ∧ Slept (tod (s.reads - 1)) call.tv (tod s.reads)
    | _ => True
  | .waitFor _ t _ _ => s.ctl.callback = true → s.lastEventTime ≤ t
  | _ => True

instance (tod : Nat → Timeval) (s : St) : (i : Input) → Decidable (Timely tod s i)
  | .wake .timeout => match hc : s.ctl with
    | .select call => decidable_of_iff (call.Answers .timeout ∧ Slept (tod (s.reads - 1)) call.tv (tod s.reads))
        (by simp only [Timely, hc])
    | .main | .loop | .timeout _ | .io _ | .dep _ _ | .returned | .aborted => isTrue (by simp only [Timely, hc])
  | .waitFor _ t _ _ => inferInstanceAs (Decidable (s.ctl.callback = true → s.lastEventTime ≤ t))
  | .enter | .wake (.ready _) | .wake .error | .complied _ | .ret => isTrue trivial

theorem within_iff {a b : Int} : Within a b ↔ a - b < 435724 := Iff.rfl

theorem Within.of_le {a b : Int} (h : a ≤ b) : Within a b := by
  rw [within_iff]
  omega

theorem Within.trans_le {a b c : Int} (h : Within a b) (hbc : b ≤ c) : Within a c := by
  rw [within_iff] at h ⊢
  omega

theorem NotBefore.mono {a : Invocation} {t u : AbsTime} (h : NotBefore a t) (htu : t ≤ u) : NotBefore a u := by
  unfold NotBefore at h ⊢
  split at h
  · exact h.trans_le htu
  · exact le_trans h htu

theorem NotBefore.within {a : Invocation} {t : AbsTime} (h : NotBefore a t) (ha : a.phase = .timeout) :
    Within a.t t := by
  simpa [NotBefore, ha] using h

/-- What is cut off from the sleep, and what the microseconds slept are counted short. -/
theorem lost_lt {r : Int} (hr : 0 ≤ r ∧ r < offset) : r - wholeMicros r * tickPerMicro < offset - 999999 * tickPerMicro := by
  have htick : tickPerMicro = 268 := by decide
  rw [htick]
  simp only [wholeMicros, offset] at *
  omega

/-- When the `timeval` for the deadline `key` has passed, little is left to it. -/
theorem within_of_slept {key : AbsTime} {a b : Timeval} (ha : a.Normal) (hb : b.Normal)
    (hv : (sleepTimeval key (getCurrentTime a)).Valid) (hs : Slept a (sleepTimeval key (getCurrentTime a)) b) :
    Within key (getCurrentTime b) := by
  have htick : tickPerMicro = 268 := by decide
  have hnear : Near key (getCurrentTime a) := sleepTimeval_valid.1 hv
  rcases le_or_gt (key - getCurrentTime a) 0 with hpast | hahead
  · rw [Slept, sleepTimeval_past hpast] at hs
    have hle : getCurrentTime a ≤ getCurrentTime b := getCurrentTime_le ha hb (by simpa [Timeval.micros] using hs)
    exact Within.of_le ((sub_nonpos.1 hpast).trans hle)
  · rw [Slept, sleepTimeval_ahead hahead hnear] at hs
    have hr : 0 ≤ (key - getCurrentTime a) % offset ∧ (key - getCurrentTime a) % offset < offset :=
      ⟨Int.emod_nonneg _ (by decide), Int.emod_lt_of_pos _ (by decide)⟩
    have hlost := lost_lt hr
    obtain ⟨hm0, hm1, -⟩ := wholeMicros_lt hr
    have hdiv := Int.ediv_mul_add_emod (key - getCurrentTime a) offset
    -- whole seconds are counted in full, microseconds with 268 ticks each at least
    have hgain : (key - getCurrentTime a) / offset * offset +
        wholeMicros ((key - getCurrentTime a) % offset) * tickPerMicro ≤ getCurrentTime b - getCurrentTime a := by
      obtain ⟨ha0, ha1⟩ := ha
      obtain ⟨hb0, hb1⟩ := hb
      simp only [Timeval.micros] at hs
      generalize wholeMicros ((key - getCurrentTime a) % offset) = m at hs hm0 hm1 ⊢
      generalize (key - getCurrentTime a) / offset = q at hs ⊢
      simp only [getCurrentTime, htick, offset, AbsTime] at hs ⊢
      omega
    unfold Within
    simp only [AbsTime] at *
    linarith

variable {cfg : Cfg} {clock : Nat → AbsTime} {tod : Nat → Timeval} {s s' : St}

/-- The invariant between two phases of the loop, when there is no batch. -/
structure Ordered (clock : Nat → AbsTime) (s : St) : Prop where
  time : s.EventTime
  clock : ∀ inv ∈ s.log, NotBefore inv (clock s.reads)
  /-- A waiting deadline is not before an event time of the timeout branch. -/
  waiting : ∀ inv ∈ s.log, inv.phase = .timeout → ∀ r ∈ s.eventList, Within inv.t r.timeout
  last : ∀ inv ∈ s.log.getLast?, inv.phase = .timeout → ∀ r ∈ s.eventList, inv.t ≤ r.timeout
  sorted : Multimap.Sorted Reg.timeout s.eventList

/-- The event times a batch still has to be called with. -/
structure RestInOrder (clock : Nat → AbsTime) (s : St) : Prop where
  sorted : s.ctl.rest.Pairwise fun a b => a.t ≤ b.t
  clock : ∀ ec ∈ s.ctl.rest, ec.t ≤ clock s.reads
  log : ∀ ec ∈ s.ctl.rest, ∀ inv ∈ s.log, NotBefore inv ec.t

/-- The invariant: in `select`, the time is the one made for the front of `eventList` at the last
clock reading; in `main` nothing was called. -/
structure TimeInv (clock : Nat → AbsTime) (s : St) : Prop where
  ordered : Ordered clock s
  rest : RestInOrder clock s
  select : ∀ call, s.ctl = .select call → ∀ r ∈ s.eventList.head?,
    call.tv = sleepTimeval r.timeout (clock (s.reads - 1))
  main : s.ctl = .main → s.log = []

theorem Ordered.timeInv (h : Ordered clock s) (hr : s.ctl.rest = []) (hsel : ∀ call, s.ctl ≠ .select call)
    (hmain : s.ctl ≠ .main) : TimeInv clock s :=
  ⟨h, ⟨by simp [hr], by simp [hr], by simp [hr]⟩, fun call hc => absurd hc (hsel call), fun hc => absurd hc hmain⟩

theorem Ordered.sublist (h : Ordered clock s) {l : List Reg} (hl : l.Sublist s.eventList) :
    Ordered clock { s with eventList := l } :=
  ⟨⟨h.time.inOrder, h.time.successive, h.time.nominal, h.time.lastEventTime⟩, h.clock,
    fun inv hi ht r hr => h.waiting inv hi ht r (hl.subset hr),
    fun inv hi ht r hr => h.last inv hi ht r (hl.subset hr), List.Pairwise.sublist hl h.sorted⟩

/-- A callback is called: what it takes to keep the promises. -/
theorem eventTime_append {inv : Invocation} (h : s.EventTime) (hl : s'.log = s.log ++ [inv])
    (ht : s'.lastEventTime = inv.t) (hord : ∀ a ∈ s.log, InOrder a inv)
    (hsucc : ∀ a ∈ s.log.getLast?, Successive a inv) (hnom : inv.phase = .timeout → inv.t = inv.reg.timeout) :
    s'.EventTime := by
  refine ⟨?_, ?_, fun x hx => ?_, fun x hx => ?_⟩
  · rw [hl, List.pairwise_append]
    exact ⟨h.inOrder, List.pairwise_singleton _ _, fun a ha b hb => List.mem_singleton.1 hb ▸ hord a ha⟩
  · rw [hl, List.isChain_append]
    exact ⟨h.successive, List.isChain_singleton _, fun a ha b hb => by
      simp only [List.head?_cons, Option.mem_some_iff] at hb
      exact hb ▸ hsucc a ha⟩
  · rw [hl, List.mem_append, List.mem_singleton] at hx
    rcases hx with hx | rfl
    · exact h.nominal x hx
    · exact hnom
  · rw [hl, List.getLast?_concat, Option.mem_some_iff] at hx
    rw [ht, hx]

/-- A descriptor or dependency callback is called at a time the clock has shown. -/
theorem ordered_append {inv : Invocation} (h : Ordered clock s) (hl : s'.log = s.log ++ [inv])
    (ht : s'.lastEventTime = inv.t) (hph : inv.phase ≠ .timeout) (hlog : ∀ a ∈ s.log, NotBefore a inv.t)
    (hclk : inv.t ≤ clock s'.reads) (hreads : clock s.reads ≤ clock s'.reads)
    (hsub : s'.eventList.Sublist s.eventList) : Ordered clock s' := by
  refine ⟨eventTime_append h.time hl ht (fun a ha => ?_) (fun a _ _ hb => absurd hb hph) (fun hb => absurd hb hph),
    fun x hx => ?_, fun x hx htx r hr => ?_, fun x hx htx => ?_, List.Pairwise.sublist hsub h.sorted⟩
  · unfold InOrder; split
    · rename_i hb; exact absurd hb hph
    · exact hlog a ha
  · rw [hl, List.mem_append, List.mem_singleton] at hx
    rcases hx with hx | rfl
    · exact (h.clock x hx).mono hreads
    · unfold NotBefore; split
      · exact Within.of_le hclk
      · exact hclk
  · rw [hl, List.mem_append, List.mem_singleton] at hx
    rcases hx with hx | rfl
    · exact h.waiting x hx htx r (hsub.subset hr)
    · exact absurd htx hph
  · rw [hl, List.getLast?_concat, Option.mem_some_iff] at hx
    exact absurd (hx ▸ htx) hph

/-- The times of a batch are successive clock readings. -/
theorem batch_sorted {pred : Reg → Bool} {elist : List EventCall} (hm : Monotone clock)
    (hcol : Collected clock pred s elist) : elist.Pairwise fun a b => a.t ≤ b.t := by
  have h : (elist.map EventCall.t).Pairwise (· ≤ ·) := by
    rw [hcol.times, List.pairwise_map]
    exact (List.pairwise_lt_range (n := elist.length)).imp fun hij => hm (by omega)
  exact List.pairwise_map.1 h

theorem timeInv_batch {pred : Reg → Bool} {ec : EventCall} {rest : List EventCall} {ctl : Ctl} {ph : Phase}
    (hm : Monotone clock) (h : Ordered clock s) (hcol : Collected clock pred s (ec :: rest)) (hr : ctl.rest = rest)
    (hph : ph ≠ .timeout) (hsel : ∀ call, ctl ≠ .select call) (hmain : ctl ≠ .main) :
    TimeInv clock (s.batch pred ctl ec ph) := by
  have hsort := batch_sorted hm hcol
  have hreads : (s.batch pred ctl ec ph).reads = s.reads + (ec :: rest).length := by
    simp only [St.batch, hcol.length]
  -- each time of the batch is a reading between the last one and the next one
  have htime : ∀ x ∈ ec :: rest, clock s.reads ≤ x.t ∧ x.t ≤ clock (s.batch pred ctl ec ph).reads := by
    intro x hx
    obtain ⟨i, hi, hxt⟩ := hcol.time hx
    rw [hxt, hreads]
    exact ⟨hm (by omega), hm (by omega)⟩
  have hbefore : ∀ x ∈ ec :: rest, ∀ a ∈ s.log, NotBefore a x.t := fun x hx a ha =>
    (h.clock a ha).mono (htime x hx).1
  refine ⟨?_, ⟨?_, ?_, ?_⟩, fun call hc => absurd hc (hsel call), fun hc => absurd hc hmain⟩
  · exact ordered_append h rfl rfl hph (hbefore ec List.mem_cons_self) (htime ec List.mem_cons_self).2
      (hm (by rw [hreads]; omega)) List.filter_sublist
  · simp only [St.batch, hr]; exact (List.pairwise_cons.1 hsort).2
  · intro x hx
    simp only [St.batch, hr] at hx
    exact (htime x (List.mem_cons_of_mem _ hx)).2
  · intro x hx a ha
    simp only [St.batch, hr] at hx ha
    rcases List.mem_append.1 ha with ha | ha
    · exact hbefore x (List.mem_cons_of_mem _ hx) a ha
    · obtain rfl := List.mem_singleton.1 ha
      have hle : ec.t ≤ x.t := (List.pairwise_cons.1 hsort).1 x hx
      unfold NotBefore; split
      · exact Within.of_le hle
      · exact hle

theorem timeInv_depPhase (hm : Monotone clock) (h : Ordered clock s) : TimeInv clock (depPhase cfg clock s) := by
  rcases depPhase_cases cfg clock s with ⟨-, he⟩ | ⟨ec, rest, hcol, he⟩ <;> rw [he]
  · exact Ordered.timeInv ⟨⟨h.1.1, h.1.2, h.1.3, h.1.4⟩, h.2, h.3, h.4, h.5⟩ rfl (by simp) (by simp)
  · exact timeInv_batch hm h hcol rfl (by simp) (by simp) (by simp)

theorem timeInv_ioPhase {set : FdSets} (hm : Monotone clock) (h : Ordered clock s) :
    TimeInv clock (ioPhase cfg clock set s) := by
  rcases ioPhase_cases cfg clock set s with ⟨-, he⟩ | ⟨ec, rest, hcol, he⟩ <;> rw [he]
  · exact timeInv_depPhase hm h
  · exact timeInv_batch hm h hcol rfl (by simp) (by simp) (by simp)

theorem timeInv_next {ctl : Ctl} {ec : EventCall} {rest : List EventCall} {ph : Phase} (h : TimeInv clock s)
    (hr : s.ctl.rest = ec :: rest) (hr' : ctl.rest = rest) (hph : ph ≠ .timeout) (hsel : ∀ call, ctl ≠ .select call)
    (hmain : ctl ≠ .main) : TimeInv clock ({ s with ctl := ctl }.invoke ec.reg ec.t ph) := by
  have hsort := h.rest.sorted
  have hclk := h.rest.clock
  have hlog := h.rest.log
  rw [hr] at hsort hclk hlog
  refine ⟨?_, ⟨?_, fun x hx => ?_, fun x hx a ha => ?_⟩, fun call hc => absurd hc (hsel call), fun hc => absurd hc hmain⟩
  · exact ordered_append h.ordered rfl rfl hph (hlog ec List.mem_cons_self) (hclk ec List.mem_cons_self) le_rfl
      (.refl _)
  · simp only [St.invoke, hr']; exact (List.pairwise_cons.1 hsort).2
  · simp only [St.invoke, hr'] at hx
    exact hclk x (List.mem_cons_of_mem _ hx)
  · simp only [St.invoke, hr'] at hx ha
    rcases List.mem_append.1 ha with ha | ha
    · exact hlog x (List.mem_cons_of_mem _ hx) a ha
    · obtain rfl := List.mem_singleton.1 ha
      have hle : ec.t ≤ x.t := (List.pairwise_cons.1 hsort).1 x hx
      unfold NotBefore; split
      · exact Within.of_le hle
      · exact hle

/-- The timeout branch calls the front of `eventList`, with its deadline. -/
theorem timeInv_timeout {r : Reg} {rs : List Reg} (h : Ordered clock s) (he : s.eventList = r :: rs)
    (hw : Within r.timeout (clock s.reads)) : TimeInv clock (timeoutPhase s r) := by
  have hr : r ∈ s.eventList := by rw [he]; exact List.mem_cons_self
  have hmin : ∀ x ∈ s.eventList, r.timeout ≤ x.timeout := by
    intro x hx
    rw [he] at hx
    have hs := h.sorted
    rw [he] at hs
    rcases List.mem_cons.1 hx with rfl | hx
    · exact le_rfl
    · exact (List.pairwise_cons.1 hs).1 x hx
  refine Ordered.timeInv ⟨eventTime_append h.time rfl rfl ?_ ?_ (fun _ => rfl), ?_, ?_, ?_, h.sorted⟩ rfl
    (by simp [timeoutPhase, St.invoke]) (by simp [timeoutPhase, St.invoke])
  · exact fun a ha hat => h.waiting a ha hat r hr
  · exact fun a ha hat _ => h.last a ha hat r hr
  · intro x hx
    rcases List.mem_append.1 hx with hx | hx
    · exact h.clock x hx
    · obtain rfl := List.mem_singleton.1 hx; exact hw
  · intro x hx hxt y hy
    rcases List.mem_append.1 hx with hx | hx
    · exact h.waiting x hx hxt y hy
    · obtain rfl := List.mem_singleton.1 hx; exact Within.of_le (hmin y hy)
  · intro x hx _ y hy
    simp only [timeoutPhase, St.invoke, List.getLast?_concat, Option.mem_some_iff] at hx
    rw [← hx]; exact hmin y hy

/-- A callback registers a deadline not before its own time. -/
theorem ordered_waitFor {k : Handle} {t : AbsTime} {e : Event} {d : Data} (h : TimeInv clock s)
    (hu : s.ctl.user = true) (ht : s.ctl.callback = true → s.lastEventTime ≤ t) :
    Ordered clock (s.waitFor k t e d) := by
  have hlast : ∀ a ∈ s.log.getLast?, a.t ≤ t := by
    intro a ha
    rw [← h.ordered.time.lastEventTime a ha]
    apply ht
    cases hc : s.ctl with
    | main => rw [h.main hc] at ha; simp at ha
    | timeout | io | dep => rfl
    | _ => rw [hc] at hu; cases hu
  have hall : ∀ a ∈ s.log, a.phase = .timeout → Within a.t t := by
    intro a ha hat
    obtain ⟨pre, x, hl⟩ : ∃ pre x, s.log = pre ++ [x] := by
      rcases List.eq_nil_or_concat s.log with hn | ⟨pre, x, hx⟩
      · rw [hn] at ha; simp at ha
      · exact ⟨pre, x, by simpa using hx⟩
    have hx : x.t ≤ t := hlast x (by simp [hl])
    have hord := h.ordered.time.inOrder
    rw [hl] at ha hord
    rcases List.mem_append.1 ha with ha | ha
    · have hax : InOrder a x := (List.pairwise_append.1 hord).2.2 a ha x (List.mem_singleton_self _)
      unfold InOrder at hax
      split at hax
      · exact (hax hat).trans_le hx
      · exact (hax.within hat).trans_le hx
    · rw [List.mem_singleton.1 ha]; exact Within.of_le hx
  refine ⟨⟨h.ordered.time.inOrder, h.ordered.time.successive, h.ordered.time.nominal, h.ordered.time.lastEventTime⟩,
    h.ordered.clock, fun a ha hat r hr => ?_, fun a ha hat r hr => ?_, Multimap.sorted_insert h.ordered.sorted⟩
  · rcases Multimap.mem_insert.1 hr with rfl | hr
    · exact hall a ha hat
    · exact h.ordered.waiting a ha hat r hr
  · rcases Multimap.mem_insert.1 hr with rfl | hr
    · exact hlast a ha
    · exact h.ordered.last a ha hat r hr

theorem timeInv_step {i : Input} (hn : ∀ k, (tod k).Normal) (hm : Monotone fun k => getCurrentTime (tod k))
    (h : TimeInv (fun k => getCurrentTime (tod k)) s) (ho : Timely tod s i)
    (hs : Step cfg (fun k => getCurrentTime (tod k)) s i s') : TimeInv (fun k => getCurrentTime (tod k)) s' := by
  have hO := h.ordered
  cases hs with
  | returned | failed | retMain =>
    exact Ordered.timeInv ⟨⟨hO.1.1, hO.1.2, hO.1.3, hO.1.4⟩, hO.2, hO.3, hO.4, hO.5⟩ rfl (by simp) (by simp)
  | overflow =>
    have hclk : ∀ inv ∈ s.log, NotBefore inv (getCurrentTime (tod (s.reads + 1))) := fun a ha =>
      (hO.clock a ha).mono (hm (by omega))
    exact Ordered.timeInv ⟨⟨hO.1.1, hO.1.2, hO.1.3, hO.1.4⟩, hclk, hO.3, hO.4, hO.5⟩ rfl (by simp) (by simp)
  | @select r rs call hc he hcall =>
    have hclk : ∀ inv ∈ s.log, NotBefore inv (getCurrentTime (tod (s.reads + 1))) := fun a ha =>
      (hO.clock a ha).mono (hm (by omega))
    refine ⟨⟨⟨hO.1.1, hO.1.2, hO.1.3, hO.1.4⟩, hclk, hO.3, hO.4, hO.5⟩, ⟨by simp [Ctl.rest], by simp [Ctl.rest],
      by simp [Ctl.rest]⟩, fun call' hcall' x hx => ?_, by simp⟩
    simp only [he, List.head?_cons, Option.mem_some_iff] at hx
    cases hcall'
    rw [← hx, Nat.add_sub_cancel]
    exact selectCall_tv hcall
  | @timeout r rs call hc he =>
    simp only [Timely, hc] at ho
    obtain ⟨hans, hslept⟩ := ho
    have htv := h.select call hc r (by simp [he])
    exact timeInv_timeout hO he (within_of_slept (hn _) (hn _) (htv ▸ hans) (htv ▸ hslept))
  | ready => exact timeInv_ioPhase hm hO
  | waitFor k t e d hu =>
    refine ⟨ordered_waitFor h hu ho, ⟨h.rest.sorted, h.rest.clock, h.rest.log⟩, fun call hc => ?_, h.main⟩
    change s.ctl = .select call at hc
    rw [hc] at hu; cases hu
  | complied d hu _ =>
    exact ⟨⟨⟨hO.1.1, hO.1.2, hO.1.3, hO.1.4⟩, hO.2, hO.3, hO.4, hO.5⟩, ⟨h.rest.sorted, h.rest.clock, h.rest.log⟩,
      h.select, h.main⟩
  | retTimeout => exact timeInv_depPhase hm (hO.sublist (List.tail_sublist _))
  | retIo => exact timeInv_depPhase hm hO
  | retDep => exact timeInv_depPhase hm ⟨⟨hO.1.1, hO.1.2, hO.1.3, hO.1.4⟩, hO.2, hO.3, hO.4, hO.5⟩
  | nextIo hc => exact timeInv_next h (by simp [hc, Ctl.rest]) rfl (by simp) (by simp) (by simp)
  | nextDep hc => exact timeInv_next h (by simp [hc, Ctl.rest]) rfl (by simp) (by simp) (by simp)

theorem timeInv_init (t0 : AbsTime) : TimeInv clock (St.init t0) := by
  refine ⟨⟨⟨.nil, .nil, ?_, ?_⟩, ?_, ?_, ?_, .nil⟩, ⟨.nil, ?_, ?_⟩, ?_, fun _ => rfl⟩ <;> simp [St.init, Ctl.rest]

/-- **The event time.** When `gettimeofday` does not go back, a timely run calls its callbacks with event
times in order, except for a `Timeout` callback behind a descriptor or dependency callback (it gets its
nominal deadline) and less than 1.63 ms behind a `Timeout` callback. -/
theorem event_time (cfg : Cfg) (tod : Nat → Timeval) (s : St) (hn : ∀ k, (tod k).Normal)
    (hm : Monotone fun k => (tod k).micros) (h : Reaches cfg (fun k => getCurrentTime (tod k)) (Timely tod) s) :
    s.EventTime := by
  have hclock : Monotone fun k => getCurrentTime (tod k) := fun a b hab => getCurrentTime_le (hn a) (hn b) (hm hab)
  exact (h.invariant timeInv_init fun _ _ _ hI ho hs => timeInv_step hn hclock hI ho hs).ordered.time

/-- A timer due at 5 and input on a descriptor, both there at 2680: the descriptor is served first. -/
def overdueRun : List Input :=
  [.waitFor 3 10000 0 0, .waitFor 0 5 0 0, .ret, .enter, .wake (.ready fun _ => [0]), .ret, .enter, .wake .timeout]

/-- A timer half a second ahead, whose callback triggers a `DependHandle`. -/
def halfSecondRun : List Input :=
  [.waitFor 1 (2 ^ 28) 0 0, .waitFor 0 (2 ^ 27) 0 0, .ret, .enter, .wake .timeout, .complied 1, .ret]

/-- The timer of `overdueRun` gets 5 after the other callback got 2680; and an overdue timer is not
the only exception: behind the half second that `select` was asked for the clock reads 134000000, and the
callbacks of `halfSecondRun` get 134217728 and 134000000. -/
theorem event_time_goes_back :
    (¬∀ cfg tod s, (∀ k, (tod k).Normal) → (Monotone fun k => (tod k).micros) →
      Reaches cfg (fun k => getCurrentTime (tod k)) (Timely tod) s → s.log.Pairwise fun a b => a.t ≤ b.t) ∧
    (¬∀ cfg tod s, (∀ k, (tod k).Normal) → (Monotone fun k => (tod k).micros) →
      Reaches cfg (fun k => getCurrentTime (tod k)) (Timely tod) s →
        s.log.Pairwise fun a b => b.phase ≠ .timeout → a.t ≤ b.t) := by
  constructor
  · intro h
    have hback := h sampleCfg (fun _ => ⟨0, 10⟩) _ (fun _ => by decide) monotone_const
      (reaches_get 0 overdueRun (by decide))
    revert hback
    decide
  · intro h
    have hnormal : ∀ k : Nat, (⟨0, if k = 0 then 0 else 500000⟩ : Timeval).Normal := by
      intro k
      split <;> decide
    have hmono : Monotone fun k : Nat => (⟨0, if k = 0 then 0 else 500000⟩ : Timeval).micros := by
      intro a b hab
      simp only [Timeval.micros]
      split
      · split <;> omega
      · rw [if_neg (by omega)]
    have hback := h sampleCfg (fun k => ⟨0, if k = 0 then 0 else 500000⟩) _ hnormal hmono
      (reaches_get 0 halfSecondRun (by decide))
    revert hback
    decide

theorem event_time_overdue :
    ((Lts.execOk (step sampleCfg fun _ => getCurrentTime ⟨0, 10⟩) (Timely fun _ => ⟨0, 10⟩) (St.init 0)
      overdueRun).get (by decide)).EventTime :=
  event_time sampleCfg (fun _ => ⟨0, 10⟩) _ (fun _ => by decide) monotone_const (reaches_get 0 overdueRun (by decide))

end Posix
