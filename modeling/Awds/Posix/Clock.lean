import Awds.Posix.Fd

/-!
# The clock and the sleep: `PosixApiIface::getCurrentTime`

A reading of `gettimeofday` becomes ticks by `FixNum::offset / 1000000L` ticks for a microsecond, 268 where there
are 268.435456. `clock_faithful`: the error of a difference is what the microsecond parts differ by.
`timer_not_early`: what is lost from the time slept, unless a second begins meanwhile, makes a timer early. From
2³¹ s on the seconds of the sleep do not fit into an `int`, and `select` fails.
-/

namespace Posix

open Gea

/-- `gettimeofday` answers this. -/
def Timeval.Normal (tv : Timeval) : Prop := 0 ≤ tv.usec ∧ tv.usec < 1000000

/-- Microseconds of real time. -/
def Timeval.micros (tv : Timeval) : Int := tv.sec * 1000000 + tv.usec

instance (tv : Timeval) : Decidable tv.Normal := inferInstanceAs (Decidable (_ ∧ _))

/-- `FixNum::offset / 1000000L` (`Time.cc:24`). -/
def tickPerMicro : Int := offset / 1000000

/-- `PosixApiIface::getCurrentTime` (`Time.cc:14`). -/
def getCurrentTime (tv : Timeval) : AbsTime := tv.sec * offset + tv.usec * tickPerMicro

/-- A `long long`. -/
def Fits (x : Int) : Prop := -2 ^ 63 ≤ x ∧ x < 2 ^ 63

/-- The products and their sum do not overflow. -/
structure Represented (tv : Timeval) : Prop where
  sec : Fits (tv.sec * offset)
  usec : Fits (tv.usec * tickPerMicro)
  sum : Fits (getCurrentTime tv)

/-- `Duration::operator double` (`Time.h:189`) of `ticks`, exact. -/
def seconds (ticks : Int) : ℚ := ticks / offset

/-! ## Faithfulness -/

/-- What the clock promises for a reading `a` and one `b` that is not earlier. -/
structure ClockFaithful (a b : Timeval) : Prop where
  represented : Represented a ∧ Represented b
  increasing : a.micros < b.micros → getCurrentTime a < getCurrentTime b
  elapsed : |seconds (getCurrentTime b - getCurrentTime a) - ((b.micros - a.micros : Int) : ℚ) / 1000000| < 2 / 1000000

theorem represented_of_range {tv : Timeval} (hn : tv.Normal) (h0 : 0 ≤ tv.sec) (hlt : tv.sec < 2 ^ 35) : Represented tv := by
  obtain ⟨hu0, hu⟩ := hn
  have htick : tickPerMicro = 268 := by decide
  refine ⟨?_, ?_, ?_⟩ <;> simp only [Fits, getCurrentTime, htick, offset] <;> omega

theorem getCurrentTime_lt {a b : Timeval} (ha : a.Normal) (hb : b.Normal) (h : a.micros < b.micros) :
    getCurrentTime a < getCurrentTime b := by
  obtain ⟨ha0, ha⟩ := ha
  obtain ⟨hb0, hb⟩ := hb
  have htick : tickPerMicro = 268 := by decide
  simp only [Timeval.micros] at h
  simp only [getCurrentTime, htick, offset, AbsTime]
  omega

/-- The error is made by the microseconds alone. -/
theorem error_eq (a b : Timeval) :
    seconds (getCurrentTime b - getCurrentTime a) - ((b.micros - a.micros : Int) : ℚ) / 1000000 =
      ((a.usec - b.usec : Int) : ℚ) * 435456 / (1000000 * 268435456) := by
  have htick : tickPerMicro = 268 := by decide
  simp only [seconds, getCurrentTime, Timeval.micros, htick, offset, AbsTime]
  push_cast
  ring

theorem error_lt_iff (a b : Timeval) :
    |seconds (getCurrentTime b - getCurrentTime a) - ((b.micros - a.micros : Int) : ℚ) / 1000000| < 2 / 1000000 ↔
      |a.usec - b.usec| ≤ 1232 := by
  have habs : |((a.usec - b.usec : Int) : ℚ) * 435456 / (1000000 * 268435456)| =
      ((|a.usec - b.usec| * 435456 : Int) : ℚ) / (1000000 * 268435456) := by
    rw [abs_div, abs_mul]
    push_cast
    norm_num
  rw [error_eq, habs, div_lt_div_iff₀ (by norm_num) (by norm_num)]
  have hint : ((|a.usec - b.usec| * 435456 : Int) : ℚ) * 1000000 < 2 * (1000000 * 268435456) ↔
      |a.usec - b.usec| * 435456 * 1000000 < 2 * (1000000 * 268435456) := by exact_mod_cast Iff.rfl
  rw [hint]
  omega

/-- **No overflow and strict growth always; a difference is off by less than two microseconds exactly if the
microsecond parts of the readings are not further apart than 1232.** -/
theorem clock_faithful {a b : Timeval} (ha : a.Normal) (hb : b.Normal)
    (hsec : 0 ≤ a.sec ∧ a.sec < 2 ^ 35 ∧ 0 ≤ b.sec ∧ b.sec < 2 ^ 35) :
    ClockFaithful a b ↔ |a.usec - b.usec| ≤ 1232 := by
  rw [← error_lt_iff]
  constructor
  · exact fun h => h.elapsed
  · intro h
    exact ⟨⟨represented_of_range ha hsec.1 hsec.2.1, represented_of_range hb hsec.2.2.1 hsec.2.2.2⟩,
      getCurrentTime_lt ha hb, h⟩

theorem clock_faithful_second : ClockFaithful ⟨1000, 999500⟩ ⟨1002, 999900⟩ :=
  (clock_faithful (by decide) (by decide) (by decide)).2 (by decide)

/-- Between the first and the last microsecond of a second more than 1.6 ms are lost. -/
theorem clock_loses_milliseconds : ¬∀ a b : Timeval, a.Normal → b.Normal → a.micros ≤ b.micros →
    (0 ≤ a.sec ∧ a.sec < 2 ^ 35 ∧ 0 ≤ b.sec ∧ b.sec < 2 ^ 35) → ClockFaithful a b := by
  intro hall
  have h := (hall ⟨0, 0⟩ ⟨0, 999999⟩ (by decide) (by decide) (by decide) (by decide)).elapsed
  rw [error_lt_iff] at h
  exact absurd h (by decide)

/-! ## The sleep -/

/-- `select` answers 0 at `b` at the earliest, after `a` was read and `tv` asked for. -/
def Slept (a tv b : Timeval) : Prop := a.micros + tv.micros ≤ b.micros

instance (a tv b : Timeval) : Decidable (Slept a tv b) := inferInstanceAs (Decidable (_ ≤ _))

/-- The whole microseconds in `ticks`. -/
def wholeMicros (ticks : Int) : Int := ticks * 1000000 / offset

/-- The seconds of the sleep fit into an `int`. -/
def Near (key now : AbsTime) : Prop := key - now < 2 ^ 31 * offset

instance (key now : AbsTime) : Decidable (Near key now) := inferInstanceAs (Decidable (_ < _))

section
variable {key now : AbsTime}

/-- `select` is not called with less than nothing. -/
theorem sleepTimeval_past (h : key - now ≤ 0) : sleepTimeval key now = ⟨0, 0⟩ := by
  unfold sleepTimeval
  split
  · rfl
  · rename_i hneg
    rw [le_antisymm h (not_lt.1 hneg)]
    rfl

theorem sleepTimeval_ahead (h0 : 0 < key - now) (h : Near key now) :
    sleepTimeval key now = ⟨(key - now) / offset, wholeMicros ((key - now) % offset)⟩ := by
  have hsec : toInt ((key - now) / offset) = (key - now) / offset := by
    refine if_pos ⟨?_, Int.ediv_lt_of_lt_mul (by decide) h⟩
    exact le_trans (by decide) (Int.ediv_nonneg h0.le (by decide))
  rw [sleepTimeval, if_neg (not_lt.2 h0.le), double2Timeval, hsec]
  rfl

theorem sleepTimeval_far (h : ¬Near key now) : (sleepTimeval key now).sec = -2 ^ 31 := by
  have hfar : 2 ^ 31 * offset ≤ key - now := not_lt.1 h
  have hpos : ¬key - now < 0 := not_lt.2 (le_trans (by decide) hfar)
  have hsec : 2 ^ 31 ≤ (key - now) / offset := Int.le_ediv_of_mul_le (by decide) hfar
  rw [sleepTimeval, if_neg hpos]
  exact if_neg fun hlt => absurd hlt.2 (not_lt.2 hsec)

/-- `select` takes the time exactly if its seconds fit. -/
theorem sleepTimeval_valid : (sleepTimeval key now).Valid ↔ Near key now := by
  constructor
  · intro h
    by_contra hfar
    have hsec := h.1
    rw [sleepTimeval_far hfar] at hsec
    exact absurd hsec (by decide)
  · intro h
    rcases le_or_gt (key - now) 0 with hpast | hahead
    · rw [sleepTimeval_past hpast]
      decide
    · rw [sleepTimeval_ahead hahead h]
      have hr0 := Int.emod_nonneg (key - now) (b := offset) (by decide)
      have hr1 := Int.emod_lt_of_pos (key - now) (b := offset) (by decide)
      refine ⟨Int.ediv_nonneg hahead.le (by decide), ?_, ?_⟩
      · exact Int.ediv_nonneg (mul_nonneg hr0 (by decide)) (by decide)
      · refine Int.ediv_lt_of_lt_mul (by decide) ?_
        rw [mul_comm 1000000]
        exact mul_lt_mul_of_pos_right hr1 (by decide)

end

/-- The deadline has passed, or is whole seconds ahead; or a second begins within the microseconds that are slept
besides whole seconds, and the ticks which a second has beyond its microseconds make up for what is cut off. -/
def Compensated (deadline : AbsTime) (a : Timeval) : Prop :=
  let ahead := deadline - getCurrentTime a
  let part := ahead % offset
  ahead ≤ 0 ∨ part = 0 ∨ 1000000 ≤ a.usec + wholeMicros part ∧
    part ≤ wholeMicros part * tickPerMicro + (offset - 1000000 * tickPerMicro)

instance (deadline : AbsTime) (a : Timeval) : Decidable (Compensated deadline a) :=
  inferInstanceAs (Decidable (_ ∨ _ ∨ _ ∧ _))

variable {cfg : Cfg} {deadline : AbsTime} {a b : Timeval} {l : List Reg}

/-- Waking up `k` seconds after the whole seconds that were slept. -/
theorem gain_of_slept {r m u v k : Int} (hm : m = r * 1000000 / offset) (hr : 0 ≤ r ∧ r < offset) (hau : 0 ≤ u)
    (hbu : v < 1000000) (hs : u + m ≤ k * 1000000 + v)
    (h : r = 0 ∨ 1000000 ≤ u + m ∧ r ≤ m * 268 + 435456) : r ≤ k * offset + (v - u) * 268 := by
  simp only [offset] at *
  have hcases : k ≤ 0 ∨ k = 1 ∨ 2 ≤ k := by omega
  rcases hcases with hk | rfl | hk
  · omega
  · omega
  · omega

/-- A later reading is not less. -/
theorem getCurrentTime_le (ha : a.Normal) (hb : b.Normal) (h : a.micros ≤ b.micros) :
    getCurrentTime a ≤ getCurrentTime b := by
  have htick : tickPerMicro = 268 := by decide
  obtain ⟨ha0, ha1⟩ := ha
  obtain ⟨hb0, hb1⟩ := hb
  simp only [getCurrentTime, Timeval.micros, htick, offset, AbsTime] at h ⊢
  omega

theorem compensated_not_early (ha : a.Normal) (hb : b.Normal) (h : Compensated deadline a)
    (hnear : Near deadline (getCurrentTime a)) (hs : Slept a (sleepTimeval deadline (getCurrentTime a)) b) :
    deadline ≤ getCurrentTime b := by
  have htick : tickPerMicro = 268 := by decide
  rcases le_or_gt (deadline - getCurrentTime a) 0 with hpast | hahead
  · -- nothing is slept, and the clock does not go back
    rw [Slept, sleepTimeval_past hpast] at hs
    have hle : getCurrentTime a ≤ getCurrentTime b := getCurrentTime_le ha hb (by simpa [Timeval.micros] using hs)
    exact (sub_nonpos.1 hpast).trans hle
  · rw [Slept, sleepTimeval_ahead hahead hnear] at hs
    obtain ⟨ha0, ha1⟩ := ha
    obtain ⟨hb0, hb1⟩ := hb
    have hor := h.resolve_left (not_le.2 hahead)
    rw [htick] at hor
    have hgain := gain_of_slept (r := (deadline - getCurrentTime a) % offset) (u := a.usec) (v := b.usec)
      (k := b.sec - a.sec - (deadline - getCurrentTime a) / offset) rfl
      ⟨Int.emod_nonneg _ (by decide), Int.emod_lt_of_pos _ (by decide)⟩ ha0 hb1 ?_ hor
    · have hdiv := Int.ediv_mul_add_emod (deadline - getCurrentTime a) offset
      generalize (deadline - getCurrentTime a) % offset = r at hgain hdiv
      generalize (deadline - getCurrentTime a) / offset = q at hgain hdiv
      simp only [getCurrentTime, htick, offset, AbsTime] at hgain hdiv ⊢
      omega
    · simp only [Timeval.micros, wholeMicros] at hs
      omega

/-- Whole microseconds are cut off, and each is counted with too few ticks. -/
theorem wholeMicros_lt {r : Int} (hr : 0 ≤ r ∧ r < offset) :
    0 ≤ wholeMicros r ∧ wholeMicros r < 1000000 ∧ (r = 0 ∨ wholeMicros r * 268 < r) := by
  simp only [wholeMicros, offset] at *
  omega

/-- The reading at which `select` may return at the earliest. -/
def firstReading (a tv : Timeval) : Timeval :=
  ⟨(a.micros + tv.micros) / 1000000, (a.micros + tv.micros) % 1000000⟩

theorem firstReading_slept (a tv : Timeval) : (firstReading a tv).Normal ∧ Slept a tv (firstReading a tv) := by
  simp only [Timeval.Normal, Slept, firstReading, Timeval.micros]
  omega

theorem not_early_compensated (ha : a.Normal) (hnear : Near deadline (getCurrentTime a))
    (h : deadline ≤ getCurrentTime (firstReading a (sleepTimeval deadline (getCurrentTime a)))) :
    Compensated deadline a := by
  have htick : tickPerMicro = 268 := by decide
  obtain ⟨ha0, ha1⟩ := ha
  rw [Compensated]
  rcases le_or_gt (deadline - getCurrentTime a) 0 with hpast | hahead
  · exact .inl hpast
  · rw [sleepTimeval_ahead hahead hnear] at h
    have hr : 0 ≤ (deadline - getCurrentTime a) % offset ∧ (deadline - getCurrentTime a) % offset < offset :=
      ⟨Int.emod_nonneg _ (by decide), Int.emod_lt_of_pos _ (by decide)⟩
    have hdiv := Int.ediv_mul_add_emod (deadline - getCurrentTime a) offset
    obtain ⟨hm0, hm1, hcut⟩ := wholeMicros_lt hr
    refine .inr ?_
    simp only [firstReading, Timeval.micros] at h
    generalize wholeMicros ((deadline - getCurrentTime a) % offset) = m at h hm0 hm1 hcut ⊢
    generalize (deadline - getCurrentTime a) % offset = r at hdiv hcut ⊢
    generalize (deadline - getCurrentTime a) / offset = q at h hdiv
    have hcarry : (a.usec + m) / 1000000 = 0 ∧ a.usec + m < 1000000 ∨
        (a.usec + m) / 1000000 = 1 ∧ 1000000 ≤ a.usec + m := by omega
    have hsec : (a.sec * 1000000 + a.usec + (q * 1000000 + m)) / 1000000 = a.sec + q + (a.usec + m) / 1000000 := by
      omega
    have hmod : (a.sec * 1000000 + a.usec + (q * 1000000 + m)) % 1000000 =
        a.usec + m - (a.usec + m) / 1000000 * 1000000 := by omega
    rw [getCurrentTime, hsec, hmod] at h
    simp only [getCurrentTime, htick, offset, AbsTime] at h hdiv ⊢
    rcases hcarry with ⟨hc, hlt⟩ | ⟨hc, hge⟩
    · rw [hc] at h
      omega
    · rw [hc] at h
      omega

/-- In an iteration that reads the clock as `a`, the callback of the timeout branch is called when its deadline has
come, whenever `select` answers 0. -/
def NeverEarly (cfg : Cfg) (s : St) (a : Timeval) : Prop :=
  ∀ tod : Nat → Timeval, (∀ k, (tod k).Normal) → tod s.reads = a → ∀ s1 s2 call,
    step cfg (fun k => getCurrentTime (tod k)) s .enter = some s1 → s1.ctl = .select call → call.Answers .timeout →
    Slept a call.tv (tod s1.reads) → step cfg (fun k => getCurrentTime (tod k)) s1 (.wake .timeout) = some s2 →
    ∀ inv ∈ s2.log.getLast?, inv.reg.timeout ≤ getCurrentTime (tod s2.reads)

section
variable {clock : Nat → AbsTime} {s s1 : St} {r : Reg} {rs : List Reg} {call : SelectCall}

theorem selectCall_tv {key now : AbsTime} (h : selectCall cfg key now l = some call) : call.tv = sleepTimeval key now := by
  obtain ⟨⟨sets, maxFd⟩, -, rfl⟩ := Option.map_eq_some_iff.1 h
  rfl

theorem watchable_of_selectCall {key now : AbsTime} (h : selectCall cfg key now l = some call) : Watchable cfg l := by
  obtain ⟨acc, hfill, -⟩ := Option.map_eq_some_iff.1 h
  exact fillFdSets_isSome.1 (Option.isSome_iff_exists.2 ⟨acc, hfill⟩)

/-- The iteration is in `select`. -/
theorem enter_select (he : s.eventList = r :: rs) (hs : step cfg clock s .enter = some s1) (hc : s1.ctl = .select call) :
    s1 = s.selecting call ∧ selectCall cfg r.timeout (clock s.reads) s.eventList = some call := by
  cases step_cases hs with
  | returned | overflow => cases hc
  | @select r' rs' call' _ he' hcall =>
    cases hc
    rw [he] at he'
    cases he'
    exact ⟨rfl, hcall⟩

theorem step_timeout (he : s.eventList = r :: rs) :
    step cfg clock (s.selecting call) (.wake .timeout) = some (timeoutPhase (s.selecting call) r) := by
  simp only [step, St.selecting, wake, he]

/-- **A timer is never early in an iteration exactly if it is `Compensated` for the clock read there**, where `select` is
called and takes its time. -/
theorem timer_not_early (ha : a.Normal) (hc : s.ctl = .loop) (he : s.eventList = r :: rs) :
    NeverEarly cfg s a ↔ (Watchable cfg s.eventList → Near r.timeout (getCurrentTime a) → Compensated r.timeout a) := by
  constructor
  · intro h hw hnear
    -- the time passes that `select` was asked for, and no more
    obtain ⟨hn, hs⟩ := firstReading_slept a (sleepTimeval r.timeout (getCurrentTime a))
    generalize hb : firstReading a (sleepTimeval r.timeout (getCurrentTime a)) = b at hn hs
    have hread : (fun k => if k = s.reads then a else b) s.reads = a := if_pos rfl
    have hnext : (fun k => if k = s.reads then a else b) (s.reads + 1) = b := if_neg (Nat.succ_ne_self _)
    have hnormal : ∀ k, ((fun k => if k = s.reads then a else b) k).Normal := by
      intro k
      dsimp only
      split
      · exact ha
      · exact hn
    generalize (fun k => if k = s.reads then a else b) = tod at hread hnext hnormal
    obtain ⟨⟨sets, maxFd⟩, hfill⟩ := Option.isSome_iff_exists.1 (fillFdSets_isSome.2 hw)
    have hcall : selectCall cfg r.timeout (getCurrentTime (tod s.reads)) s.eventList =
        some ⟨sets, maxFd, sleepTimeval r.timeout (getCurrentTime a)⟩ := by rw [selectCall, hfill, hread]; rfl
    have hearly := h tod hnormal hread _ _ _ (enter_selecting hc he hcall) rfl (sleepTimeval_valid.2 hnear)
      (by simpa only [St.selecting, hnext] using hs) (step_timeout he)
    simp only [timeoutPhase, St.invoke, List.getLast?_concat, Option.mem_some_iff, forall_eq', St.selecting, hnext]
      at hearly
    rw [← hb] at hearly
    exact not_early_compensated ha hnear hearly
  · intro hp tod hn htod s1 s2 call h1 hcall hans hs h2 inv hinv
    obtain ⟨rfl, hsel⟩ := enter_select he h1 hcall
    rw [htod] at hsel
    rw [step_timeout he] at h2
    obtain rfl := Option.some.inj h2
    have hw : Watchable cfg s.eventList := watchable_of_selectCall hsel
    have htv := selectCall_tv hsel
    have hnear : Near r.timeout (getCurrentTime a) := sleepTimeval_valid.1 (htv ▸ hans)
    have hlast : inv.reg = r := by
      simp only [timeoutPhase, St.invoke, List.getLast?_concat, Option.mem_some_iff] at hinv
      rw [← hinv]
    rw [hlast]
    exact compensated_not_early ha (hn _) (hp hw hnear) hnear (htv ▸ hs)

end

/-- A `Blocker` whose deadline is `timeout`, at the head of the loop. -/
def waiting (timeout : AbsTime) : St := { (St.init 0).waitFor 0 timeout 0 0 with ctl := .loop }

/-- A second begins while 0.9 s are slept. -/
theorem timer_not_early_second : NeverEarly sampleCfg (waiting (getCurrentTime ⟨5, 300000⟩ + 241591910)) ⟨5, 300000⟩ :=
  (timer_not_early (by decide) rfl rfl).2 fun _ _ => by decide

/-- A timer half a second ahead. -/
theorem timer_early : ¬∀ cfg s r rs a, Timeval.Normal a → s.ctl = .loop → s.eventList = r :: rs → NeverEarly cfg s a := by
  intro hall
  have h := hall sampleCfg (waiting 134217728) ⟨0, 0, 134217728, 0, 0⟩ [] ⟨0, 0⟩ (by decide) rfl rfl
  have hnormal : ∀ k : Nat, (if k = 0 then (⟨0, 0⟩ : Timeval) else ⟨0, 500000⟩).Normal := by
    intro k
    split <;> decide
  have hearly := h (fun k => if k = 0 then ⟨0, 0⟩ else ⟨0, 500000⟩) hnormal rfl _ _
    ⟨fun _ => [], 0, ⟨0, 500000⟩⟩ (enter_selecting rfl rfl rfl) rfl (by decide) (by decide)
    (step_timeout rfl) ⟨⟨0, 0, 134217728, 0, 0⟩, 134217728, .timeout, .timeout⟩ rfl
  exact absurd hearly (by decide)

end Posix
