import Awds.Ns2.Scheduler

/-!
# `CalendarScheduler`: `ns2-gea/ns-2/common/scheduler.cc`, from :560 on

| here | there |
| --- | --- |
| `Bucket`, `Cal`          | `CalendarScheduler::Bucket`, the fields of `CalendarScheduler` |
| `CALENDAR_HASH`, `fmod`  | the macro, `fmod` on what is not negative |
| `put`, `insert`          | the list part of `insert`, `insert` (:595) |
| `put2`, `insert2`        | the list part of `insert2`, `insert2` (:652) |
| `CAL_DEQUEUE`, `scan`, `head` | the macro, the `for` of `head`, `head` (:702) |
| `deque`, `cancel`, `lookup` | :765, :894, :935 |
| `reinit`, `resize`, `newwidth` | :806, :829, :864 |

The circular list of a bucket is a list: behind its last event comes its first. Time is exact, in an
ordered field: a `double` rounds in `t / width_` and in `e->time_ - cal_clock_`. Times are not negative
(with `t < 0` the bucket number would be, too). The counts (`qsize_`, `stat_qsize_`, `nbuckets_`, the
thresholds) are `int`s there and have no bound here.
-/

namespace Ns2.Sched

open StableQueue

variable {ι η κ : Type*}

structure Bucket (ι η κ : Type*) where
  list_ : List (Event ι η κ)
  /-- how many different times -/
  count_ : ℤ

structure Cal (ι η κ : Type*) where
  width : κ
  diff0 : κ
  diff1 : κ
  diff2 : κ
  stat_qsize : ℤ
  nbuckets : ℕ
  lastbucket : ℕ
  top_threshold : ℤ
  bot_threshold : ℤ
  buckets : ℕ → Bucket ι η κ
  qsize : ℤ
  cal_clock : κ

namespace Cal

section

variable [Field κ] [LinearOrder κ] [FloorSemiring κ]

def fmod (x y : κ) : κ := x - y * ⌊x / y⌋₊

def CALENDAR_HASH (width : κ) (nbuckets : ℕ) (t : κ) : ℕ := ⌊fmod (t / width) nbuckets⌋₊

def hash (c : Cal ι η κ) (t : κ) : ℕ := CALENDAR_HASH c.width c.nbuckets t

/-! ## Inserting -/

/-- The list with `e` in it, behind equal times; is the time of `e` new? -/
def put (e : Event ι η κ) : List (Event ι η κ) → List (Event ι η κ) × Bool
  | [] => ([e], true)
  | head :: rest =>
    let tail := rest.getLastD head
    if tail.time ≤ e.time then (head :: rest ++ [e], tail.time ≠ e.time)
    else
      let front := (head :: rest).takeWhile (·.time ≤ e.time)
      let back := (head :: rest).dropWhile (·.time ≤ e.time)
      (front ++ e :: back, (front.getLastD tail).time ≠ e.time)

/-- The same, before equal times. -/
def put2 (e : Event ι η κ) : List (Event ι η κ) → List (Event ι η κ) × Bool
  | [] => ([e], true)
  | head :: rest =>
    if (rest.getLastD head).time < e.time then (head :: rest ++ [e], head.time ≠ e.time)
    else
      let front := (head :: rest).takeWhile (·.time < e.time)
      let back := (head :: rest).dropWhile (·.time < e.time)
      (front ++ e :: back, (back.headD head).time ≠ e.time)

/-- Store the list of a bucket, and count. -/
def place (c : Cal ι η κ) (i : ℕ) (r : List (Event ι η κ) × Bool) : Cal ι η κ :=
  let new : ℤ := if r.2 then 1 else 0
  { c with
    buckets := Function.update c.buckets i ⟨r.1, (c.buckets i).count_ + new⟩
    stat_qsize := c.stat_qsize + new
    qsize := c.qsize + 1 }

def insert2 (e : Event ι η κ) (c : Cal ι η κ) : Cal ι η κ :=
  let i := c.hash e.time
  c.place i (put2 e (c.buckets i).list_)

/-! ## Resizing -/

/-- `reinit`; `cal_clock_` stays. -/
def reinit (nbuck : ℕ) (bwidth start cal_clock : κ) : Cal ι η κ where
  width := bwidth
  diff0 := bwidth * nbuck / 2
  diff1 := bwidth * nbuck / 2 + bwidth
  diff2 := bwidth * nbuck
  stat_qsize := 0
  nbuckets := nbuck
  lastbucket := CALENDAR_HASH bwidth nbuck start
  top_threshold := nbuck * 2
  bot_threshold := nbuck / 2 - 2
  buckets := fun _ => ⟨[], 0⟩
  qsize := 0
  cal_clock := cal_clock

/-- The index of the fullest bucket. -/
def max_bucket (c : Cal ι η κ) : ℕ :=
  (List.range' 1 (c.nbuckets - 1)).foldl
    (fun m i => if (c.buckets m).count_ < (c.buckets i).count_ then i else m) 0

def newwidth (c : Cal ι η κ) (newsize : ℕ) : κ :=
  let b := c.buckets c.max_bucket
  let nsamples := b.count_
  match b.list_ with
  | [] => c.width
  | head :: rest =>
    if nsamples ≤ 4 then c.width
    else
      let nw := (rest.getLastD head).time - head.time
      let nw := nw / (if (newsize : ℤ) < nsamples then (newsize : κ) else (nsamples : κ))
      nw * 4

def resize (c : Cal ι η κ) (newsize : ℕ) (start : κ) : Cal ι η κ :=
  let bwidth := c.newwidth newsize
  let newsize := if newsize < 4 then 4 else newsize
  -- each bucket from its end, with `insert2`
  let events := (List.range c.nbuckets).flatMap fun i => (c.buckets i).list_.reverse
  events.foldl (fun c e => c.insert2 e) (reinit newsize bwidth start c.cal_clock)

/-- Back to the time of the event: "may happen in RT scheduler". -/
def rewind (c : Cal ι η κ) (e : Event ι η κ) : Cal ι η κ :=
  if e.time < c.cal_clock then { c with cal_clock := e.time, lastbucket := c.hash e.time } else c

def insert (e : Event ι η κ) (c : Cal ι η κ) : Cal ι η κ :=
  let c := c.rewind e
  let i := c.hash e.time
  let c := c.place i (put e (c.buckets i).list_)
  if c.top_threshold < c.stat_qsize then c.resize (c.nbuckets * 2) c.cal_clock else c

/-! ## The next event -/

/-- The macro: `.error` is `goto found_l`, `.ok` the first event so far, with its bucket. -/
def CAL_DEQUEUE (c : Cal ι η κ) (diffx : κ) (i : ℕ) (min_e : Option (Event ι η κ × ℕ)) :
    Except (Event ι η κ × ℕ) (Option (Event ι η κ × ℕ)) :=
  match (c.buckets i).list_ with
  | [] => .ok min_e
  | e :: _ =>
    if e.time - c.cal_clock < diffx then .error (e, i)
    else match min_e with
      | none => .ok (some (e, i))
      | some (m, l) => if e.time < m.time then .ok (some (e, i)) else .ok (some (m, l))

/-- `if (++i == nbuckets_) i = 0` -/
def next (c : Cal ι η κ) (i : ℕ) : ℕ := if i + 1 = c.nbuckets then 0 else i + 1

def lastbucket_dec (c : Cal ι η κ) : ℕ := if c.lastbucket ≠ 0 then c.lastbucket - 1 else c.nbuckets - 1

/-- The `for`; it ends within a year. -/
def scan (c : Cal ι η κ) : ℕ → ℕ → Option (Event ι η κ × ℕ) → Except (Event ι η κ × ℕ) (Option (Event ι η κ × ℕ))
  | 0, _, min_e => .ok min_e
  | year + 1, i, min_e =>
    if i = c.lastbucket_dec then .ok min_e
    else (c.CAL_DEQUEUE c.diff2 i min_e).bind fun m => scan c year (c.next i) m

/-- "One last bucket is left unchecked - take the minimum". `none`: there is no event. -/
def finish (c : Cal ι η κ) (min_e : Option (Event ι η κ × ℕ)) : Option (Event ι η κ × ℕ) :=
  match min_e, (c.buckets c.lastbucket_dec).list_ with
  | none, [] => none
  | some r, [] => some r
  | none, e :: _ => some (e, c.lastbucket_dec)
  | some (m, l), e :: _ => if m.time < e.time then some (m, l) else some (e, c.lastbucket_dec)

/-- The event to dequeue, with its bucket. -/
def find (c : Cal ι η κ) : Option (Event ι η κ × ℕ) :=
  let i := c.lastbucket
  let found := (c.CAL_DEQUEUE c.diff0 i none).bind fun m =>
    (c.CAL_DEQUEUE c.diff1 (c.next i) m).bind fun m => c.scan c.nbuckets (c.next (c.next i)) m
  match found with
  | .error r => some r
  | .ok min_e => c.finish min_e

def head (c : Cal ι η κ) : Option (Event ι η κ) × Cal ι η κ :=
  if c.qsize = 0 then (none, c)
  else match c.find with
    | none => (none, c)
    | some (e, l) => (some e, { c with lastbucket := l, cal_clock := e.time })

/-! ## Removing -/

/-- Store the list of a bucket without an event, and count. -/
def take (c : Cal ι η κ) (i : ℕ) (list : List (Event ι η κ)) (last : Bool) : Cal ι η κ :=
  let gone : ℤ := if last then 1 else 0
  { c with
    buckets := Function.update c.buckets i ⟨list, (c.buckets i).count_ - gone⟩
    stat_qsize := c.stat_qsize - gone
    qsize := c.qsize - 1 }

def deque (c : Cal ι η κ) : Option (Event ι η κ × Cal ι η κ) :=
  match c.head with
  | (none, _) => none
  | (some e, c) =>
    let rest := (c.buckets c.lastbucket).list_.tail
    let c := c.take c.lastbucket rest (rest = [] ∨ (rest.headD e).time ≠ e.time)
    some (e, if c.stat_qsize < c.bot_threshold then c.resize (c.nbuckets / 2) c.cal_clock else c)

variable [DecidableEq ι] [DecidableEq η]

/-- `cancel`, with the assertions on the counts. -/
def cancel (e : Event ι η κ) (c : Cal ι η κ) : Option (Cal ι η κ) :=
  let i := c.hash e.time
  let list := (c.buckets i).list_
  let front := list.takeWhile (· ≠ e)
  let back := (list.dropWhile (· ≠ e)).tail
  -- the neighbours in the circle
  let next_ := back.headD (front.headD e)
  let prev_ := front.getLastD (back.getLastD e)
  if e ∉ list then none
  else
    let c := c.take i (front ++ back) (next_ = e ∨ (next_.time ≠ e.time ∧ prev_.time ≠ e.time))
    if c.stat_qsize < 0 ∨ (c.buckets i).count_ < 0 ∨ ((c.buckets i).count_ = 0 ∧ (c.buckets i).list_ ≠ []) then none
    else some c

end

def lookup (uid : ℤ) (c : Cal ι η κ) : Option (Event ι η κ) :=
  (List.range c.nbuckets).findSome? fun i => (c.buckets i).list_.find? (·.uid = uid)

end Cal

/-- The constructor: `reinit(4, 1.0, cal_clock_)`. -/
def CalendarScheduler [DecidableEq ι] [DecidableEq η] [Field κ] [LinearOrder κ] [FloorSemiring κ] :
    Impl (Event ι η κ) ℤ (Cal ι η κ) where
  init := Cal.reinit 4 1 0 0
  insert := Cal.insert
  cancel := Cal.cancel
  deque := Cal.deque
  head := Cal.head
  lookup := Cal.lookup

namespace Cal

/-! ## The list of a bucket -/

section

variable [LinearOrder κ] {e : Event ι η κ} {q : List (Event ι η κ)}

/-- The times in a list. -/
def times (l : List (Event ι η κ)) : Finset κ := (l.map Event.time).toFinset

theorem mem_times {l : List (Event ι η κ)} {t : κ} : t ∈ times l ↔ ∃ y ∈ l, y.time = t := by
  simp [times]

theorem times_perm {l l' : List (Event ι η κ)} (h : l.Perm l') : times l = times l' := by
  ext t
  simp only [mem_times, h.mem_iff]

theorem times_cons (e : Event ι η κ) (l : List (Event ι η κ)) : times (e :: l) = Insert.insert e.time (times l) := by
  simp [times]

/-- `r` is the list `q` with `e` in its place, and whether the time of `e` was new. -/
structure Placed (e : Event ι η κ) (q : List (Event ι η κ)) (r : List (Event ι η κ) × Bool) : Prop where
  perm : r.1.Perm (e :: q)
  stable : Stable Event.time Event.seq r.1
  new : r.2 = true ↔ e.time ∉ times q

theorem sorted_dropWhile {p : Event ι η κ → Bool} (hp : ∀ x y : Event ι η κ, x.time ≤ y.time → p y = true → p x = true) :
    ∀ {q : List (Event ι η κ)}, Multimap.Sorted Event.time q → ∀ y ∈ q.dropWhile p, p y = false
  | [], _ => by simp
  | x :: q, h => by
    intro y hy
    rw [List.dropWhile_cons] at hy
    split_ifs at hy with hx
    · exact sorted_dropWhile hp (List.pairwise_cons.1 h).2 y hy
    · rcases List.mem_cons.1 hy with rfl | hy
      · simpa using hx
      · exact Bool.eq_false_iff.2 fun hpy => hx (hp x y ((List.pairwise_cons.1 h).1 y hy) hpy)

/-- The last event of a list in order is the latest. -/
theorem le_getLastD {d : Event ι η κ} : ∀ {q : List (Event ι η κ)}, Multimap.Sorted Event.time q → ∀ y ∈ q,
    y.time ≤ (q.getLastD d).time
  | [], _ => by simp
  | [x], _ => by simp
  | x :: z :: q, h => by
    intro y hy
    have ih := le_getLastD (d := d) (List.pairwise_cons.1 h).2
    have hlast : (x :: z :: q).getLastD d = (z :: q).getLastD d := by simp [List.getLastD]
    rw [hlast]
    rcases List.mem_cons.1 hy with rfl | hy
    · exact ((List.pairwise_cons.1 h).1 z List.mem_cons_self).trans (ih z List.mem_cons_self)
    · exact ih y hy

theorem getLastD_time_ne {A : List (Event ι η κ)} {d : Event ι η κ} {t : κ} (hs : Multimap.Sorted Event.time A)
    (hA : ∀ a ∈ A, a.time ≤ t) (hd : A = [] → d.time ≠ t) : (A.getLastD d).time ≠ t ↔ t ∉ times A := by
  cases A with
  | nil => simpa [times] using hd rfl
  | cons a A =>
    rw [List.getLastD_cons]
    have hmem : A.getLastD a ∈ a :: A := List.getLastD_mem_cons
    constructor
    · intro hne ht
      obtain ⟨y, hy, hyt⟩ := mem_times.1 ht
      have hle := le_getLastD (d := d) hs y hy
      rw [List.getLastD_cons, hyt] at hle
      exact hne (le_antisymm (hA _ hmem) hle)
    · intro ht heq
      exact ht (mem_times.2 ⟨_, hmem, heq⟩)

theorem headD_time_ne {A : List (Event ι η κ)} {d : Event ι η κ} {t : κ} (hs : Multimap.Sorted Event.time A)
    (hA : ∀ a ∈ A, t ≤ a.time) (hd : A = [] → d.time ≠ t) : (A.headD d).time ≠ t ↔ t ∉ times A := by
  cases A with
  | nil => simpa [times] using hd rfl
  | cons a A =>
    have hmem : a ∈ a :: A := List.mem_cons_self
    simp only [List.headD_cons]
    constructor
    · intro hne ht
      obtain ⟨y, hy, hyt⟩ := mem_times.1 ht
      have hle : a.time ≤ y.time := by
        rcases List.mem_cons.1 hy with rfl | hy
        · exact le_rfl
        · exact (List.pairwise_cons.1 hs).1 y hy
      rw [hyt] at hle
      exact hne (le_antisymm hle (hA _ hmem))
    · intro ht heq
      exact ht (mem_times.2 ⟨_, hmem, heq⟩)

theorem times_append {A B : List (Event ι η κ)} {t : κ} : t ∈ times (A ++ B) ↔ t ∈ times A ∨ t ∈ times B := by
  simp only [mem_times, List.mem_append, or_and_right, exists_or]

/-- `insert` puts an event behind those of its time. -/
theorem put_spec (h : Stable Event.time Event.seq q) (hnew : ∀ y ∈ q, y.seq < e.seq) : Placed e q (put e q) := by
  have hsorted := h.multimap
  suffices hput : (put e q).1 = Multimap.insert Event.time e q ∧ ((put e q).2 = true ↔ e.time ∉ times q) by
    refine ⟨?_, ?_, hput.2⟩
    · rw [hput.1]; exact Multimap.insert_perm Event.time e q
    · rw [hput.1]; exact h.insert hnew
  cases q with
  | nil => simp [put, Multimap.insert, times]
  | cons head rest =>
    have htail : rest.getLastD head = (head :: rest).getLastD e := List.getLastD_cons.symm
    simp only [put, htail]
    split_ifs with hle
    · have hall : ∀ y ∈ head :: rest, y.time ≤ e.time := fun y hy => (le_getLastD hsorted y hy).trans hle
      refine ⟨?_, ?_⟩
      · have happ : Multimap.insert Event.time e (head :: rest ++ []) = head :: rest ++ [e] := Multimap.insert_append hall
        rw [List.append_nil] at happ
        exact happ.symm
      · rw [decide_eq_true_iff]
        exact getLastD_time_ne hsorted hall (fun h => by cases h)
    · have hsplit := List.takeWhile_append_dropWhile (p := fun y : Event ι η κ => decide (y.time ≤ e.time)) (l := head :: rest)
      have hback := sorted_dropWhile (p := fun y : Event ι η κ => decide (y.time ≤ e.time))
        (fun x y hxy hy => by simpa using hxy.trans (by simpa using hy)) hsorted
      have hfront : ∀ y ∈ (head :: rest).takeWhile (fun y : Event ι η κ => decide (y.time ≤ e.time)), y.time ≤ e.time :=
        fun y hy => by simpa using List.mem_takeWhile_imp hy
      generalize (head :: rest).takeWhile (fun y : Event ι η κ => decide (y.time ≤ e.time)) = A at hsplit hfront ⊢
      generalize (head :: rest).dropWhile (fun y : Event ι η κ => decide (y.time ≤ e.time)) = B at hsplit hback ⊢
      have hlater : ∀ y ∈ B, e.time < y.time := fun y hy => by simpa using hback y hy
      rw [← hsplit] at hsorted hle ⊢
      refine ⟨?_, ?_⟩
      · rw [Multimap.insert_append hfront, Multimap.insert_of_all_lt hlater]
      · rw [decide_eq_true_iff, getLastD_time_ne (List.pairwise_append.1 hsorted).1 hfront fun _ heq => hle heq.le,
          times_append, not_or]
        refine (and_iff_left fun ht => ?_).symm
        obtain ⟨y, hy, hyt⟩ := mem_times.1 ht
        exact (hlater y hy).ne' hyt

/-- An event between what is earlier and what is later, or of its time and newer. -/
theorem stable_middle {A B : List (Event ι η κ)} (h : Stable Event.time Event.seq (A ++ B)) (hA : ∀ a ∈ A, a.time < e.time)
    (hB : ∀ b ∈ B, rank Event.time Event.seq e < rank Event.time Event.seq b) (hseq : ∀ y ∈ A ++ B, y.seq ≠ e.seq) :
    Stable Event.time Event.seq (A ++ e :: B) := by
  obtain ⟨hsA, hsB, hAB⟩ := List.pairwise_append.1 h.sorted
  have hAe : ∀ a ∈ A, rank Event.time Event.seq a < rank Event.time Event.seq e := fun a ha => rank_lt.2 (.inl (hA a ha))
  refine ⟨List.pairwise_append.2 ⟨hsA, List.pairwise_cons.2 ⟨hB, hsB⟩, fun a ha b hb => ?_⟩, ?_⟩
  · rcases List.mem_cons.1 hb with rfl | hb
    · exact hAe a ha
    · exact hAB a ha b hb
  · rw [(List.perm_middle.map Event.seq).nodup_iff, List.map_cons, List.nodup_cons]
    refine ⟨fun hm => ?_, h.distinct⟩
    obtain ⟨y, hy, heq⟩ := List.mem_map.1 hm
    exact hseq y hy heq

/-- `insert2` puts an event before those of its time. -/
theorem put2_spec (h : Stable Event.time Event.seq q) (hseq : ∀ y ∈ q, y.seq ≠ e.seq)
    (hold : ∀ y ∈ q, y.time = e.time → e.seq < y.seq) : Placed e q (put2 e q) := by
  cases q with
  | nil => exact ⟨.refl _, ⟨List.pairwise_singleton _ _, List.nodup_singleton _⟩, by simp [put2, times]⟩
  | cons head rest =>
    have hsorted := h.multimap
    have htail : rest.getLastD head = (head :: rest).getLastD e := List.getLastD_cons.symm
    simp only [put2, htail]
    split_ifs with hlt
    · have hall : ∀ y ∈ head :: rest, y.time < e.time := fun y hy => (le_getLastD hsorted y hy).trans_lt hlt
      have hstable := stable_middle (e := e) (A := head :: rest) (B := []) (by simpa using h) hall (by simp) (by simpa using hseq)
      refine ⟨List.perm_append_singleton e _, hstable, ?_⟩
      simp only [decide_eq_true_iff]
      refine iff_of_true (hall head List.mem_cons_self).ne fun ht => ?_
      obtain ⟨y, hy, hyt⟩ := mem_times.1 ht
      exact (hall y hy).ne hyt
    · have hsplit := List.takeWhile_append_dropWhile (p := fun y : Event ι η κ => decide (y.time < e.time)) (l := head :: rest)
      have hback := sorted_dropWhile (p := fun y : Event ι η κ => decide (y.time < e.time))
        (fun x y hxy hy => by simpa using hxy.trans_lt (by simpa using hy)) hsorted
      have hfront : ∀ y ∈ (head :: rest).takeWhile (fun y : Event ι η κ => decide (y.time < e.time)), y.time < e.time :=
        fun y hy => by simpa using List.mem_takeWhile_imp hy
      have hhead : head ∈ head :: rest := List.mem_cons_self
      generalize (head :: rest).takeWhile (fun y : Event ι η κ => decide (y.time < e.time)) = A at hsplit hfront ⊢
      generalize (head :: rest).dropWhile (fun y : Event ι η κ => decide (y.time < e.time)) = B at hsplit hback ⊢
      have hlater : ∀ y ∈ B, e.time ≤ y.time := fun y hy => by simpa using hback y hy
      rw [← hsplit] at h hsorted hseq hold hhead ⊢
      refine ⟨List.perm_middle, stable_middle h hfront (fun b hb => ?_) hseq, ?_⟩
      · rcases (hlater b hb).lt_or_eq with hlt | heq
        · exact rank_lt.2 (.inl hlt)
        · exact rank_lt.2 (.inr ⟨heq, hold b (List.mem_append_right A hb) heq.symm⟩)
      · have hempty : B = [] → head.time ≠ e.time := by
          rintro rfl
          rw [List.append_nil] at hhead
          exact (hfront head hhead).ne
        simp only [decide_eq_true_iff]
        rw [headD_time_ne (List.pairwise_append.1 hsorted).2.1 hlater hempty, times_append, not_or]
        refine (and_iff_right fun ht => ?_).symm
        obtain ⟨y, hy, hyt⟩ := mem_times.1 ht
        exact (hfront y hy).ne hyt

end

/-! ## Days and buckets -/

variable [Field κ] [LinearOrder κ] [IsStrictOrderedRing κ] [FloorSemiring κ]

/-- The bucket of a time is its day in the year. -/
theorem hash_eq {width t : κ} (n : ℕ) (hw : 0 < width) (ht : 0 ≤ t) :
    CALENDAR_HASH width n t = ⌊t / width⌋₊ % n := by
  have hx : 0 ≤ t / width := div_nonneg ht hw.le
  have hcast : (n : κ) * ⌊t / width / n⌋₊ = ((n * (⌊t / width⌋₊ / n) : ℕ) : κ) := by
    rw [Nat.floor_div_natCast]
    push_cast
    rfl
  rw [CALENDAR_HASH, fmod, hcast, Nat.floor_sub_natCast]
  have hdiv := Nat.div_add_mod ⌊t / width⌋₊ n
  omega

theorem hash_lt {width t : κ} {n : ℕ} (hw : 0 < width) (ht : 0 ≤ t) (hn : 0 < n) : CALENDAR_HASH width n t < n := by
  rw [hash_eq n hw ht]
  exact Nat.mod_lt _ hn

/-! ## The calendar holds the list -/

/-- Bucket `i` has the events whose day is `i`, in the order of the list. -/
structure Rel (c : Cal ι η κ) (l : List (Event ι η κ)) : Prop where
  stable : Stable Event.time Event.seq l
  width : 0 < c.width
  nbuckets : 4 ≤ c.nbuckets
  diff0 : c.diff0 = c.width * c.nbuckets / 2
  diff1 : c.diff1 = c.width * c.nbuckets / 2 + c.width
  diff2 : c.diff2 = c.width * c.nbuckets
  bucket : ∀ i < c.nbuckets, (c.buckets i).list_ = l.filter (c.hash ·.time = i)
  count : ∀ i < c.nbuckets, (c.buckets i).count_ = (times (c.buckets i).list_).card
  stat : c.stat_qsize = (times l).card
  qsize : c.qsize = l.length
  last : c.lastbucket = c.hash c.cal_clock
  clock : 0 ≤ c.cal_clock
  future : ∀ e ∈ l, c.cal_clock ≤ e.time

variable {c : Cal ι η κ} {l l' : List (Event ι η κ)} {e : Event ι η κ}

omit [IsStrictOrderedRing κ] in
theorem Rel.nonneg (h : Rel c l) (he : e ∈ l) : 0 ≤ e.time := h.clock.trans (h.future e he)

theorem Rel.hash_lt (h : Rel c l) {t : κ} (ht : 0 ≤ t) : c.hash t < c.nbuckets :=
  Cal.hash_lt h.width ht (by have := h.nbuckets; omega)

omit [IsStrictOrderedRing κ] in
/-- What a bucket holds is in order. -/
theorem Rel.stable_bucket (h : Rel c l) {i : ℕ} (hi : i < c.nbuckets) :
    Stable Event.time Event.seq (c.buckets i).list_ := by
  rw [h.bucket i hi]
  exact h.stable.sublist List.filter_sublist

/-- A time is new in its bucket exactly if it is new. -/
theorem Rel.times_bucket (h : Rel c l) {t : κ} (ht : 0 ≤ t) :
    t ∈ times (c.buckets (c.hash t)).list_ ↔ t ∈ times l := by
  rw [h.bucket _ (h.hash_lt ht), mem_times, mem_times]
  constructor
  · rintro ⟨y, hy, hyt⟩
    exact ⟨y, List.mem_of_mem_filter hy, hyt⟩
  · rintro ⟨y, hy, rfl⟩
    exact ⟨y, List.mem_filter.2 ⟨hy, by simp⟩, rfl⟩

omit [IsStrictOrderedRing κ] in
@[simp] theorem place_hash (c : Cal ι η κ) (i : ℕ) (r : List (Event ι η κ) × Bool) (t : κ) :
    (c.place i r).hash t = c.hash t := rfl

omit [Field κ] [LinearOrder κ] [IsStrictOrderedRing κ] [FloorSemiring κ] in
theorem place_self (c : Cal ι η κ) (i : ℕ) (r : List (Event ι η κ) × Bool) :
    (c.place i r).buckets i = ⟨r.1, (c.buckets i).count_ + if r.2 then 1 else 0⟩ := Function.update_self ..

omit [Field κ] [LinearOrder κ] [IsStrictOrderedRing κ] [FloorSemiring κ] in
theorem place_of_ne (c : Cal ι η κ) {i j : ℕ} (hij : j ≠ i) (r : List (Event ι η κ) × Bool) :
    (c.place i r).buckets j = c.buckets j := Function.update_of_ne hij ..

omit [Field κ] [IsStrictOrderedRing κ] [FloorSemiring κ] in
/-- One more event: one more time, if it is new. -/
theorem card_times {q q' : List (Event ι η κ)} {new : Bool} (hp : q'.Perm (e :: q)) (hq : new = true ↔ e.time ∉ times q) :
    ((times q').card : ℤ) = (times q).card + if new then 1 else 0 := by
  rw [times_perm hp, times_cons]
  by_cases hmem : e.time ∈ times q
  · rw [Finset.insert_eq_of_mem hmem, if_neg (fun h => hq.1 h hmem), add_zero]
  · rw [Finset.card_insert_of_notMem hmem, if_pos (hq.2 hmem)]
    push_cast
    rfl

/-- Both `insert` and `insert2` keep the calendar. -/
theorem Rel.place (h : Rel c l) (hl' : Stable Event.time Event.seq l') (hperm : l'.Perm (e :: l))
    (hclock : c.cal_clock ≤ e.time) {r : List (Event ι η κ) × Bool}
    (hr : Placed e (c.buckets (c.hash e.time)).list_ r) : Rel (c.place (c.hash e.time) r) l' := by
  have he : 0 ≤ e.time := h.clock.trans hclock
  have hi := h.hash_lt he
  refine ⟨hl', h.width, h.nbuckets, h.diff0, h.diff1, h.diff2, fun j hj => ?_, fun j hj => ?_, ?_, ?_, h.last, h.clock,
    fun x hx => ?_⟩
  · simp only [place_hash]
    by_cases hji : j = c.hash e.time
    · subst hji
      rw [place_self]
      refine hr.stable.eq_of_perm (hl'.sublist List.filter_sublist) (hr.perm.trans ?_)
      rw [h.bucket _ hi]
      have hcons : (e :: l).filter (c.hash ·.time = c.hash e.time) = e :: l.filter (c.hash ·.time = c.hash e.time) := by simp
      rw [← hcons]
      exact (hperm.filter _).symm
    · rw [place_of_ne c hji]
      refine (h.stable_bucket hj).eq_of_perm (hl'.sublist List.filter_sublist) ?_
      rw [h.bucket j hj]
      have hcons : (e :: l).filter (c.hash ·.time = j) = l.filter (c.hash ·.time = j) := by simp [Ne.symm hji]
      rw [← hcons]
      exact (hperm.filter _).symm
  · by_cases hji : j = c.hash e.time
    · subst hji
      rw [place_self, h.count _ hj]
      exact (card_times hr.perm hr.new).symm
    · rw [place_of_ne c hji, h.count j hj]
  · have hstat : (c.place (c.hash e.time) r).stat_qsize = c.stat_qsize + if r.2 then 1 else 0 := rfl
    rw [hstat, h.stat]
    exact (card_times hperm (hr.new.trans (not_congr (h.times_bucket he)))).symm
  · have hqsize : (c.place (c.hash e.time) r).qsize = c.qsize + 1 := rfl
    rw [hqsize, h.qsize, hperm.length_eq, List.length_cons]
    push_cast
    rfl
  · rcases List.mem_cons.1 (hperm.mem_iff.1 hx) with rfl | hx
    · exact hclock
    · exact h.future x hx

omit [IsStrictOrderedRing κ] in
theorem rel_reinit {n : ℕ} {width start : κ} (hn : 4 ≤ n) (hw : 0 < width) (hs : 0 ≤ start) :
    Rel (reinit n width start start : Cal ι η κ) [] where
  stable := .nil
  width := hw
  nbuckets := hn
  diff0 := rfl
  diff1 := rfl
  diff2 := rfl
  bucket _ _ := rfl
  count _ _ := by simp [reinit, times]
  stat := by simp [reinit, times]
  qsize := rfl
  last := rfl
  clock := hs
  future := by simp

/-- `insert2` of an event that is older than those of its time. -/
theorem Rel.insert2 (h : Rel c l) (hclock : c.cal_clock ≤ e.time) (hseq : ∀ y ∈ l, y.seq ≠ e.seq)
    (hold : ∀ y ∈ l, y.time = e.time → e.seq < y.seq) : ∃ l', l'.Perm (e :: l) ∧ Rel (c.insert2 e) l' := by
  have hall := put2_spec h.stable hseq hold
  have hi := h.hash_lt (h.clock.trans hclock)
  have hsub : ∀ y ∈ (c.buckets (c.hash e.time)).list_, y ∈ l := by
    intro y hy
    rw [h.bucket _ hi] at hy
    exact List.mem_of_mem_filter hy
  exact ⟨_, hall.perm, h.place hall.stable hall.perm hclock
    (put2_spec (h.stable_bucket hi) (fun y hy => hseq y (hsub y hy)) fun y hy => hold y (hsub y hy))⟩

/-- Events are moved one by one, each of them older than those of its time that were moved before. -/
theorem Rel.foldl_insert2 : ∀ (events : List (Event ι η κ)) {c : Cal ι η κ} {q : List (Event ι η κ)}, Rel c q →
    (∀ e ∈ events, c.cal_clock ≤ e.time) → ((events ++ q).map Event.seq).Nodup →
    events.Pairwise (fun x y => x.time = y.time → y.seq < x.seq) →
    (∀ x ∈ q, ∀ y ∈ events, x.time = y.time → y.seq < x.seq) →
    ∃ l', l'.Perm (events ++ q) ∧ Rel (events.foldl (fun c e => c.insert2 e) c) l'
  | [], c, q, h, _, _, _, _ => ⟨q, .refl _, h⟩
  | e :: events, c, q, h, hclock, hnodup, hpair, hold => by
    rw [List.cons_append, List.map_cons, List.nodup_cons] at hnodup
    obtain ⟨hfresh, hnodup⟩ := hnodup
    have hne : ∀ y ∈ q, y.seq ≠ e.seq := by
      intro y hy heq
      exact hfresh (List.mem_map.2 ⟨y, List.mem_append_right _ hy, heq⟩)
    obtain ⟨q', hperm, hq'⟩ := h.insert2 (hclock e List.mem_cons_self) hne
      fun y hy heq => hold y hy e List.mem_cons_self heq
    have hmid : (events ++ q').Perm (e :: (events ++ q)) := (hperm.append_left events).trans List.perm_middle
    have hnodup' : ((events ++ q').map Event.seq).Nodup := by
      rw [(hmid.map Event.seq).nodup_iff, List.map_cons, List.nodup_cons]
      exact ⟨hfresh, hnodup⟩
    have hold' : ∀ x ∈ q', ∀ y ∈ events, x.time = y.time → y.seq < x.seq := by
      intro x hx y hy
      rcases List.mem_cons.1 (hperm.mem_iff.1 hx) with rfl | hx
      · exact (List.pairwise_cons.1 hpair).1 y hy
      · exact hold x hx y (List.mem_cons_of_mem e hy)
    obtain ⟨l', hl', hrel⟩ := Rel.foldl_insert2 events hq' (fun x hx => hclock x (List.mem_cons_of_mem e hx)) hnodup'
      (List.pairwise_cons.1 hpair).2 hold'
    exact ⟨l', hl'.trans hmid, hrel⟩

omit [IsStrictOrderedRing κ] in
theorem Rel.mem_bucket (h : Rel c l) {i : ℕ} (hi : i < c.nbuckets) : e ∈ (c.buckets i).list_ ↔ e ∈ l ∧ c.hash e.time = i := by
  rw [h.bucket i hi, List.mem_filter, decide_eq_true_iff]

/-- The buckets, each from its end: the events of the list, those of one time from the newest to the oldest. -/
theorem Rel.events (h : Rel c l) :
    let events := (List.range c.nbuckets).flatMap fun i => (c.buckets i).list_.reverse
    events.Perm l ∧ events.Pairwise fun x y => x.time = y.time → y.seq < x.seq := by
  have hdisjoint : ∀ i < c.nbuckets, ∀ j < c.nbuckets, i ≠ j → ∀ x ∈ (c.buckets i).list_.reverse,
      ∀ y ∈ (c.buckets j).list_.reverse, x.time ≠ y.time := by
    intro i hi j hj hij x hx y hy heq
    rw [List.mem_reverse, h.mem_bucket hi] at hx
    rw [List.mem_reverse, h.mem_bucket hj] at hy
    exact hij (by rw [← hx.2, ← hy.2, heq])
  have hrange : (List.range c.nbuckets).Pairwise fun i j => ∀ x ∈ (c.buckets i).list_.reverse,
      ∀ y ∈ (c.buckets j).list_.reverse, x.time ≠ y.time := by
    refine List.nodup_range.imp_of_mem fun {i j} hi hj hij => ?_
    exact hdisjoint i (List.mem_range.1 hi) j (List.mem_range.1 hj) hij
  refine ⟨(List.perm_ext_iff_of_nodup ?_ h.stable.nodup).2 fun e => ?_, List.pairwise_flatMap.2 ⟨fun i hi => ?_, ?_⟩⟩
  · refine List.nodup_flatMap.2 ⟨fun i hi => ?_, hrange.imp fun {i j} hne x hx hy => hne x hx x hy rfl⟩
    exact List.nodup_reverse.2 (h.stable_bucket (List.mem_range.1 hi)).nodup
  · simp only [List.mem_flatMap, List.mem_range, List.mem_reverse]
    constructor
    · rintro ⟨i, hi, he⟩
      exact ((h.mem_bucket hi).1 he).1
    · intro he
      have hi := h.hash_lt (h.nonneg he)
      exact ⟨_, hi, (h.mem_bucket hi).2 ⟨he, rfl⟩⟩
  · refine List.pairwise_reverse.2 ((h.stable_bucket (List.mem_range.1 hi)).sorted.imp fun {x y} hxy heq => ?_)
    rcases rank_lt.1 hxy with hlt | ⟨-, hlt⟩
    · exact absurd heq hlt.ne'
    · exact hlt
  · exact hrange.imp fun {i j} hne x hx y hy heq => absurd heq (hne x hx y hy)

theorem Rel.resize (h : Rel c l) {newsize : ℕ} (hw : 0 < c.newwidth newsize) : Rel (c.resize newsize c.cal_clock) l := by
  have hsize : 4 ≤ (if newsize < 4 then 4 else newsize) := by split_ifs <;> omega
  obtain ⟨hperm, hpair⟩ := h.events
  obtain ⟨l', hl', hrel⟩ := (rel_reinit hsize hw h.clock).foldl_insert2 _
    (fun e he => h.future e (hperm.mem_iff.1 he))
    (by rw [List.append_nil, (hperm.map Event.seq).nodup_iff]; exact h.stable.distinct) hpair (by simp)
  rw [List.append_nil] at hl'
  rw [h.stable.eq_of_perm hrel.stable (hl'.trans hperm).symm]
  exact hrel

omit [Field κ] [LinearOrder κ] [IsStrictOrderedRing κ] [FloorSemiring κ] in
theorem max_bucket_lt (c : Cal ι η κ) (hn : 0 < c.nbuckets) : c.max_bucket < c.nbuckets := by
  have hfold : ∀ (is : List ℕ) (m : ℕ), m < c.nbuckets → (∀ i ∈ is, i < c.nbuckets) →
      is.foldl (fun m i => if (c.buckets m).count_ < (c.buckets i).count_ then i else m) m < c.nbuckets := by
    intro is
    induction is with
    | nil => exact fun m hm _ => hm
    | cons i is ih =>
      intro m hm his
      rw [List.foldl_cons]
      refine ih _ ?_ fun j hj => his j (List.mem_cons_of_mem i hj)
      split_ifs
      · exact his i List.mem_cons_self
      · exact hm
  refine hfold _ 0 hn fun i hi => ?_
  have hrange := List.mem_range'_1.1 hi
  omega

/-- The assertion of `newwidth`: more than four different times, so the first and the last differ. -/
theorem Rel.newwidth_pos (h : Rel c l) {newsize : ℕ} (hn : 0 < newsize) : 0 < c.newwidth newsize := by
  have hi : c.max_bucket < c.nbuckets := c.max_bucket_lt (by have := h.nbuckets; omega)
  have hcount := h.count _ hi
  have hsorted := (h.stable_bucket hi).multimap
  simp only [newwidth]
  cases hlist : (c.buckets c.max_bucket).list_ with
  | nil => exact h.width
  | cons head rest =>
    rw [hlist] at hcount hsorted
    simp only
    split_ifs with hfour hmin
    · exact h.width
    all_goals
      have hspan : head.time < (rest.getLastD head).time := by
        by_contra hle
        have hall : times (head :: rest) ⊆ {head.time} := by
          intro t ht
          obtain ⟨y, hy, rfl⟩ := mem_times.1 ht
          have hlast := le_getLastD (d := head) hsorted y hy
          rw [List.getLastD_cons] at hlast
          rw [Finset.mem_singleton]
          refine le_antisymm (hlast.trans (not_lt.1 hle)) ?_
          rcases List.mem_cons.1 hy with rfl | hy
          · exact le_rfl
          · exact (List.pairwise_cons.1 hsorted).1 y hy
        have hcard := Finset.card_le_card hall
        rw [Finset.card_singleton] at hcard
        omega
      have hnum : 0 < (rest.getLastD head).time - head.time := sub_pos.2 hspan
    · have hden : (0 : κ) < newsize := by exact_mod_cast hn
      positivity
    · have hden : (0 : κ) < ((c.buckets c.max_bucket).count_ : κ) := by exact_mod_cast (by omega : 0 < (c.buckets c.max_bucket).count_)
      positivity

omit [IsStrictOrderedRing κ] in
theorem Rel.rewind (h : Rel c l) (he : 0 ≤ e.time) : Rel (c.rewind e) l ∧ (c.rewind e).cal_clock ≤ e.time := by
  unfold Cal.rewind
  split_ifs with hback
  · exact ⟨⟨h.stable, h.width, h.nbuckets, h.diff0, h.diff1, h.diff2, h.bucket, h.count, h.stat, h.qsize, rfl, he,
      fun x hx => hback.le.trans (h.future x hx)⟩, le_rfl⟩
  · exact ⟨h, not_lt.1 hback⟩

theorem Rel.insert (h : Rel c l) (he : 0 ≤ e.time) (hnew : ∀ y ∈ l, y.seq < e.seq) :
    Rel (c.insert e) (Multimap.insert Event.time e l) := by
  obtain ⟨hrel, hle⟩ := h.rewind he
  unfold Cal.insert
  generalize c.rewind e = c at hrel hle
  have hi : c.hash e.time < c.nbuckets := hrel.hash_lt he
  have hplaced : Rel (c.place (c.hash e.time) (put e (c.buckets (c.hash e.time)).list_)) (Multimap.insert Event.time e l) :=
    hrel.place (h.stable.insert hnew) (Multimap.insert_perm _ e l) hle
      (put_spec (hrel.stable_bucket hi) fun y hy => hnew y ((hrel.mem_bucket hi).1 hy).1)
  simp only
  split_ifs with hresize
  · exact hplaced.resize (hplaced.newwidth_pos (by have := hplaced.nbuckets; omega))
  · exact hplaced

/-! ## The next event -/

def day (c : Cal ι η κ) (t : κ) : ℕ := ⌊t / c.width⌋₊

/-- The bucket that is looked at behind `k` others. -/
def idx (c : Cal ι η κ) (k : ℕ) : ℕ := (c.lastbucket + k) % c.nbuckets

theorem Rel.day_le (h : Rel c l) {t : κ} (ht : 0 ≤ t) : (c.day t : κ) * c.width ≤ t := by
  rw [← le_div_iff₀ h.width]
  exact Nat.floor_le (div_nonneg ht h.width.le)

theorem Rel.lt_day (h : Rel c l) (t : κ) : t < ((c.day t : κ) + 1) * c.width := by
  rw [← div_lt_iff₀ h.width]
  exact Nat.lt_floor_add_one _

theorem Rel.day_mono (h : Rel c l) {t t' : κ} (hle : t ≤ t') : c.day t ≤ c.day t' :=
  Nat.floor_le_floor (div_le_div_of_nonneg_right hle h.width.le)

/-- A later day is later. -/
theorem Rel.lt_of_day (h : Rel c l) {t t' : κ} (hlt : c.day t < c.day t') : t < t' := by
  by_contra hle
  exact hlt.not_ge (h.day_mono (not_lt.1 hle))

theorem Rel.hash_day (h : Rel c l) {t : κ} (ht : 0 ≤ t) : c.hash t = c.day t % c.nbuckets := hash_eq _ h.width ht

theorem Rel.idx_eq (h : Rel c l) (k : ℕ) : c.idx k = (c.day c.cal_clock + k) % c.nbuckets := by
  rw [idx, h.last, h.hash_day h.clock, Nat.mod_add_mod]

omit [IsStrictOrderedRing κ] in
theorem Rel.idx_lt (h : Rel c l) (k : ℕ) : c.idx k < c.nbuckets :=
  Nat.mod_lt _ (by have := h.nbuckets; omega)

omit [IsStrictOrderedRing κ] in
theorem Rel.next_idx (h : Rel c l) (k : ℕ) : c.next (c.idx k) = c.idx (k + 1) := by
  have hlt := h.idx_lt k
  have hsucc : c.idx (k + 1) = (c.idx k + 1) % c.nbuckets := by
    rw [idx, idx, ← Nat.add_assoc, Nat.mod_add_mod]
  rw [next, hsucc]
  split_ifs with hwrap
  · rw [hwrap, Nat.mod_self]
  · rw [Nat.mod_eq_of_lt (by omega)]

theorem Rel.idx_zero (h : Rel c l) : c.idx 0 = c.lastbucket := by
  have hlast : c.lastbucket < c.nbuckets := h.last ▸ h.hash_lt h.clock
  rw [idx, Nat.add_zero, Nat.mod_eq_of_lt hlast]

theorem Rel.idx_dec (h : Rel c l) : c.idx (c.nbuckets - 1) = c.lastbucket_dec := by
  have hn := h.nbuckets
  have hlast : c.lastbucket < c.nbuckets := h.last ▸ h.hash_lt h.clock
  unfold idx lastbucket_dec
  split_ifs with h0
  · have hsum : c.lastbucket + (c.nbuckets - 1) = (c.lastbucket - 1) + c.nbuckets := by omega
    rw [hsum, Nat.add_mod_right, Nat.mod_eq_of_lt (by omega)]
  · have hzero : c.lastbucket = 0 := by omega
    rw [hzero, Nat.zero_add, Nat.mod_eq_of_lt (by omega)]

omit [Field κ] [LinearOrder κ] [IsStrictOrderedRing κ] [FloorSemiring κ] in
theorem idx_inj (c : Cal ι η κ) {j k : ℕ} (hj : j < c.nbuckets) (hk : k < c.nbuckets) (heq : c.idx j = c.idx k) :
    j = k := by
  have hjk : j ≡ k [MOD c.nbuckets] := Nat.ModEq.add_left_cancel' c.lastbucket heq
  rwa [Nat.ModEq, Nat.mod_eq_of_lt hj, Nat.mod_eq_of_lt hk] at hjk

/-- An event in the bucket `k` is due on day `k` from now, or a year later, or two. -/
theorem Rel.mem_idx (h : Rel c l) {k : ℕ} (hk : k < c.nbuckets) (he : e ∈ (c.buckets (c.idx k)).list_) :
    e ∈ l ∧ (c.day e.time = c.day c.cal_clock + k ∨ c.day c.cal_clock + k + c.nbuckets ≤ c.day e.time) := by
  obtain ⟨hel, hhash⟩ := (h.mem_bucket (h.idx_lt k)).1 he
  refine ⟨hel, ?_⟩
  have hle : c.day c.cal_clock ≤ c.day e.time := h.day_mono (h.future e hel)
  rw [h.hash_day (h.nonneg hel), h.idx_eq] at hhash
  obtain ⟨d, hd⟩ := Nat.exists_eq_add_of_le hle
  rw [hd] at hhash ⊢
  have hmod : d % c.nbuckets = k := by
    have hcancel : d ≡ k [MOD c.nbuckets] := Nat.ModEq.add_left_cancel' (c.day c.cal_clock) hhash
    rwa [Nat.ModEq, Nat.mod_eq_of_lt hk] at hcancel
  have hdiv := Nat.div_add_mod d c.nbuckets
  rcases Nat.eq_zero_or_pos (d / c.nbuckets) with hz | hpos
  · rw [hz] at hdiv
    left
    omega
  · have hyear : c.nbuckets ≤ c.nbuckets * (d / c.nbuckets) := Nat.le_mul_of_pos_right _ hpos
    right
    omega

/-- Each event is in the bucket of some day of the year. -/
theorem Rel.exists_idx (h : Rel c l) (he : e ∈ l) :
    ∃ k < c.nbuckets, e ∈ (c.buckets (c.idx k)).list_ ∧ c.day c.cal_clock + k ≤ c.day e.time := by
  have hn := h.nbuckets
  have hle : c.day c.cal_clock ≤ c.day e.time := h.day_mono (h.future e he)
  obtain ⟨d, hd⟩ := Nat.exists_eq_add_of_le hle
  refine ⟨d % c.nbuckets, Nat.mod_lt _ (by omega), (h.mem_bucket (h.idx_lt _)).2 ⟨he, ?_⟩, ?_⟩
  · rw [h.hash_day (h.nonneg he), h.idx_eq, hd, Nat.add_mod_mod]
  · have hmod := Nat.mod_le d c.nbuckets
    omega

/-- `e` is the first event of the list, in bucket `i`. -/
structure First (c : Cal ι η κ) (l : List (Event ι η κ)) (e : Event ι η κ) (i : ℕ) : Prop where
  lt : i < c.nbuckets
  head : (c.buckets i).list_.head? = some e
  le : ∀ x ∈ l, e.time ≤ x.time

/-- `k` buckets were looked at: nothing in them is due this year, and `min_e` is the first of it. -/
structure Scanned (c : Cal ι η κ) (k : ℕ) (min_e : Option (Event ι η κ × ℕ)) : Prop where
  far : ∀ j < k, ∀ x ∈ (c.buckets (c.idx j)).list_, c.day c.cal_clock + j + c.nbuckets ≤ c.day x.time
  none : min_e = none → ∀ j < k, (c.buckets (c.idx j)).list_ = []
  some : ∀ r, min_e = some r → (∃ j < k, r.2 = c.idx j) ∧ (c.buckets r.2).list_.head? = some r.1 ∧
    ∀ j < k, ∀ x ∈ (c.buckets (c.idx j)).list_, r.1.time ≤ x.time

omit [IsStrictOrderedRing κ] in
/-- The first event of a bucket is its earliest. -/
theorem Rel.head_le (h : Rel c l) {i : ℕ} (hi : i < c.nbuckets) {rest : List (Event ι η κ)}
    (hlist : (c.buckets i).list_ = e :: rest) : ∀ x ∈ (c.buckets i).list_, e.time ≤ x.time := by
  intro x hx
  have hsorted := (h.stable_bucket hi).multimap
  rw [hlist] at hx hsorted
  rcases List.mem_cons.1 hx with rfl | hx
  · exact le_rfl
  · exact (List.pairwise_cons.1 hsorted).1 x hx

/-- The test `diff < diffx`: is the event due on this day? -/
theorem Rel.due_iff (h : Rel c l) {k : ℕ} (hk : k < c.nbuckets) (he : e ∈ (c.buckets (c.idx k)).list_) {diffx : κ}
    (hlow : ((k : κ) + 1) * c.width ≤ diffx) (hhigh : diffx ≤ ((c.nbuckets : κ) + k - 1) * c.width) :
    e.time - c.cal_clock < diffx ↔ c.day e.time = c.day c.cal_clock + k := by
  obtain ⟨hel, hday⟩ := h.mem_idx hk he
  have h1 := h.day_le (h.nonneg hel)
  have h2 := h.lt_day e.time
  have h3 := h.day_le h.clock
  have h4 := h.lt_day c.cal_clock
  constructor
  · intro hlt
    refine hday.resolve_right fun hyear => ?_
    have hcast : (c.day c.cal_clock : κ) + k + c.nbuckets ≤ c.day e.time := by exact_mod_cast hyear
    have hmul := mul_le_mul_of_nonneg_right hcast h.width.le
    linarith
  · intro heq
    have hcast : (c.day e.time : κ) = c.day c.cal_clock + k := by exact_mod_cast heq
    rw [hcast] at h2
    linarith

/-- `CAL_DEQUEUE` on the next bucket. -/
theorem Rel.look (h : Rel c l) {k : ℕ} (hk : k < c.nbuckets) (diffx : κ) {min_e : Option (Event ι η κ × ℕ)}
    (hlow : ((k : κ) + 1) * c.width ≤ diffx) (hhigh : diffx ≤ ((c.nbuckets : κ) + k - 1) * c.width)
    (hs : Scanned c k min_e) :
    match c.CAL_DEQUEUE diffx (c.idx k) min_e with
    | .error r => First c l r.1 r.2
    | .ok m => Scanned c (k + 1) m := by
  unfold CAL_DEQUEUE
  cases hlist : (c.buckets (c.idx k)).list_ with
  | nil =>
    refine ⟨fun j hj x hx => ?_, fun hm j hj => ?_, fun r hr => ?_⟩
    · rcases Nat.lt_succ_iff_lt_or_eq.1 hj with hj | rfl
      · exact hs.far j hj x hx
      · rw [hlist] at hx; cases hx
    · rcases Nat.lt_succ_iff_lt_or_eq.1 hj with hj | rfl
      · exact hs.none hm j hj
      · exact hlist
    · obtain ⟨⟨j, hj, hji⟩, hhead, hle⟩ := hs.some r hr
      refine ⟨⟨j, hj.trans (Nat.lt_succ_self k), hji⟩, hhead, fun j hj x hx => ?_⟩
      rcases Nat.lt_succ_iff_lt_or_eq.1 hj with hj | rfl
      · exact hle j hj x hx
      · rw [hlist] at hx; cases hx
  | cons e rest =>
    have hmem : e ∈ (c.buckets (c.idx k)).list_ := hlist ▸ List.mem_cons_self
    have hfirst := h.head_le (h.idx_lt k) hlist
    have hdue := h.due_iff hk hmem hlow hhigh
    simp only
    split_ifs with hhit
    · -- nothing is due before day `k`, and on day `k` nothing before `e`
      have hday := hdue.1 hhit
      refine ⟨h.idx_lt k, by rw [hlist]; rfl, fun x hx => ?_⟩
      obtain ⟨j, hj, hxj, hxday⟩ := h.exists_idx hx
      rcases lt_trichotomy j k with hlt | rfl | hgt
      · have hfar := hs.far j hlt x hxj
        have hlater : c.day e.time < c.day x.time := by omega
        exact (h.lt_of_day hlater).le
      · exact hfirst x hxj
      · have hlater : c.day e.time < c.day x.time := by omega
        exact (h.lt_of_day hlater).le
    · have hfar : ∀ j < k + 1, ∀ x ∈ (c.buckets (c.idx j)).list_, c.day c.cal_clock + j + c.nbuckets ≤ c.day x.time := by
        intro j hj x hx
        rcases Nat.lt_succ_iff_lt_or_eq.1 hj with hj | rfl
        · exact hs.far j hj x hx
        · have hyear := (h.mem_idx hk hmem).2.resolve_left fun hday => hhit (hdue.2 hday)
          exact hyear.trans (h.day_mono (hfirst x hx))
      cases min_e with
      | none =>
        refine ⟨hfar, nofun, fun r hr => ?_⟩
        obtain rfl : (e, c.idx k) = r := Option.some.inj hr
        refine ⟨⟨k, Nat.lt_succ_self k, rfl⟩, by rw [hlist]; rfl, fun j hj x hx => ?_⟩
        rcases Nat.lt_succ_iff_lt_or_eq.1 hj with hj | rfl
        · rw [hs.none rfl j hj] at hx; cases hx
        · exact hfirst x hx
      | some m =>
        obtain ⟨m, i⟩ := m
        obtain ⟨⟨j, hj, hji⟩, hhead, hle⟩ := hs.some (m, i) rfl
        simp only
        split_ifs with hearlier
        · refine ⟨hfar, nofun, fun r hr => ?_⟩
          obtain rfl : (e, c.idx k) = r := Option.some.inj hr
          refine ⟨⟨k, Nat.lt_succ_self k, rfl⟩, by rw [hlist]; rfl, fun j hj x hx => ?_⟩
          rcases Nat.lt_succ_iff_lt_or_eq.1 hj with hj | rfl
          · exact hearlier.le.trans (hle j hj x hx)
          · exact hfirst x hx
        · refine ⟨hfar, nofun, fun r hr => ?_⟩
          obtain rfl : (m, i) = r := Option.some.inj hr
          refine ⟨⟨j, hj.trans (Nat.lt_succ_self k), hji⟩, hhead, fun j' hj' x hx => ?_⟩
          rcases Nat.lt_succ_iff_lt_or_eq.1 hj' with hj' | rfl
          · exact hle j' hj' x hx
          · exact (not_lt.1 hearlier).trans (hfirst x hx)

/-- The `for` goes on to the last bucket but one. -/
theorem Rel.scan (h : Rel c l) : ∀ (year k : ℕ) (min_e : Option (Event ι η κ × ℕ)), 2 ≤ k → k < c.nbuckets →
    c.nbuckets ≤ k + 1 + year → Scanned c k min_e →
    match c.scan year (c.idx k) min_e with
    | .error r => First c l r.1 r.2
    | .ok m => Scanned c (c.nbuckets - 1) m
  | 0, k, min_e, _, hk, hyear, hs => by
    have hlast : k = c.nbuckets - 1 := by omega
    simp only [Cal.scan]
    exact hlast ▸ hs
  | year + 1, k, min_e, hk2, hk, hyear, hs => by
    simp only [Cal.scan]
    split_ifs with hdec
    · rw [← h.idx_dec] at hdec
      have hlast : k = c.nbuckets - 1 := c.idx_inj hk (by omega) hdec
      exact hlast ▸ hs
    · have hn := h.nbuckets
      have hkn : k + 1 < c.nbuckets := by
        by_contra hge
        have hlast : k = c.nbuckets - 1 := by omega
        exact hdec (by rw [hlast, h.idx_dec])
      have hk' : (2 : κ) ≤ k := by exact_mod_cast hk2
      have hn' : (k : κ) + 1 ≤ c.nbuckets := by exact_mod_cast hk
      have hw := h.width
      have hlook := h.look hk c.diff2 (by rw [h.diff2]; nlinarith) (by rw [h.diff2]; nlinarith) hs
      cases hdeq : c.CAL_DEQUEUE c.diff2 (c.idx k) min_e with
      | error r =>
        rw [hdeq] at hlook
        exact hlook
      | ok m =>
        rw [hdeq] at hlook
        simp only [Except.bind, h.next_idx]
        exact Rel.scan h year (k + 1) m (by omega) hkn (by omega) hlook

omit [IsStrictOrderedRing κ] in
theorem scanned_zero (c : Cal ι η κ) : Scanned c 0 none where
  far j hj := absurd hj j.not_lt_zero
  none _ j hj := absurd hj j.not_lt_zero
  some := nofun

theorem Rel.finish (h : Rel c l) (hne : l ≠ []) {min_e : Option (Event ι η κ × ℕ)}
    (hs : Scanned c (c.nbuckets - 1) min_e) : ∃ e i, c.finish min_e = some (e, i) ∧ First c l e i := by
  have hdec := h.idx_dec
  have hlt : c.lastbucket_dec < c.nbuckets := hdec ▸ h.idx_lt _
  -- an event is in a bucket that was scanned or in the last one
  have hwhere : ∀ x ∈ l, (∃ j < c.nbuckets - 1, x ∈ (c.buckets (c.idx j)).list_) ∨ x ∈ (c.buckets c.lastbucket_dec).list_ := by
    intro x hx
    obtain ⟨j, hj, hxj, -⟩ := h.exists_idx hx
    by_cases hjl : j < c.nbuckets - 1
    · exact .inl ⟨j, hjl, hxj⟩
    · have hlast : j = c.nbuckets - 1 := by omega
      rw [hlast, hdec] at hxj
      exact .inr hxj
  cases hlist : (c.buckets c.lastbucket_dec).list_ with
  | nil =>
    have hscanned : ∀ x ∈ l, ∃ j < c.nbuckets - 1, x ∈ (c.buckets (c.idx j)).list_ := by
      intro x hx
      refine (hwhere x hx).resolve_right ?_
      rw [hlist]
      exact List.not_mem_nil
    cases min_e with
    | none =>
      obtain ⟨x, hx⟩ := List.exists_mem_of_ne_nil l hne
      obtain ⟨j, hj, hxj⟩ := hscanned x hx
      rw [hs.none rfl j hj] at hxj
      cases hxj
    | some r =>
      obtain ⟨⟨k, -, hrk⟩, hhead, hle⟩ := hs.some r rfl
      refine ⟨r.1, r.2, by simp only [Cal.finish, hlist], hrk ▸ h.idx_lt k, hhead, fun x hx => ?_⟩
      obtain ⟨j, hj, hxj⟩ := hscanned x hx
      exact hle j hj x hxj
  | cons e rest =>
    have hfirst := h.head_le hlt hlist
    have hhead : (c.buckets c.lastbucket_dec).list_.head? = some e := by rw [hlist]; rfl
    cases min_e with
    | none =>
      refine ⟨e, c.lastbucket_dec, by simp only [Cal.finish, hlist], hlt, hhead, fun x hx => ?_⟩
      rcases hwhere x hx with ⟨j, hj, hxj⟩ | hx
      · rw [hs.none rfl j hj] at hxj
        cases hxj
      · exact hfirst x hx
    | some r =>
      obtain ⟨⟨k, -, hrk⟩, hrhead, hle⟩ := hs.some r rfl
      by_cases hearlier : r.1.time < e.time
      · refine ⟨r.1, r.2, by simp only [Cal.finish, hlist, if_pos hearlier], hrk ▸ h.idx_lt k, hrhead, fun x hx => ?_⟩
        rcases hwhere x hx with ⟨j, hj, hxj⟩ | hx
        · exact hle j hj x hxj
        · exact hearlier.le.trans (hfirst x hx)
      · refine ⟨e, c.lastbucket_dec, by simp only [Cal.finish, hlist, if_neg hearlier], hlt, hhead, fun x hx => ?_⟩
        rcases hwhere x hx with ⟨j, hj, hxj⟩ | hx
        · exact (not_lt.1 hearlier).trans (hle j hj x hxj)
        · exact hfirst x hx

/-- `find` finds the first event. -/
theorem Rel.find (h : Rel c l) (hne : l ≠ []) : ∃ e i, c.find = some (e, i) ∧ First c l e i := by
  have hn := h.nbuckets
  have hn' : (4 : κ) ≤ c.nbuckets := by exact_mod_cast hn
  have hw := h.width
  -- the first two buckets have thresholds of their own
  have h0 := h.look (k := 0) (by omega) c.diff0 (by rw [h.diff0]; push_cast; nlinarith)
    (by rw [h.diff0]; push_cast; nlinarith) (scanned_zero c)
  simp only [Cal.find, ← h.idx_zero, h.next_idx]
  cases hd0 : c.CAL_DEQUEUE c.diff0 (c.idx 0) none with
  | error r =>
    rw [hd0] at h0
    exact ⟨r.1, r.2, rfl, h0⟩
  | ok m0 =>
    rw [hd0] at h0
    have h1 := h.look (k := 1) (by omega) c.diff1 (by rw [h.diff1]; push_cast; nlinarith)
      (by rw [h.diff1]; push_cast; nlinarith) h0
    simp only [Except.bind]
    cases hd1 : c.CAL_DEQUEUE c.diff1 (c.idx (0 + 1)) m0 with
    | error r =>
      rw [hd1] at h1
      exact ⟨r.1, r.2, rfl, h1⟩
    | ok m1 =>
      rw [hd1] at h1
      have h2 := h.scan c.nbuckets 2 m1 le_rfl (by omega) (by omega) h1
      simp only
      cases hd2 : c.scan c.nbuckets (c.idx (0 + 1 + 1)) m1 with
      | error r =>
        rw [hd2] at h2
        exact ⟨r.1, r.2, rfl, h2⟩
      | ok m2 =>
        rw [hd2] at h2
        exact h.finish hne h2

omit [IsStrictOrderedRing κ] in
/-- The first of the list is the earliest event at the front of a bucket. -/
theorem First.eq (h : Rel c (e :: l)) {x : Event ι η κ} {i : ℕ} (hx : First c (e :: l) x i) :
    x = e ∧ i = c.hash e.time := by
  have hmem : x ∈ (c.buckets i).list_ := List.mem_of_head? hx.head
  obtain ⟨hxl, hhash⟩ := (h.mem_bucket hx.lt).1 hmem
  rcases List.mem_cons.1 hxl with rfl | hxl
  · exact ⟨rfl, hhash.symm⟩
  · -- a later one of the same time would be behind `e` in the same bucket
    have hlt := h.stable.head_lt x hxl
    have htime : x.time = e.time := by
      have hle := hx.le e List.mem_cons_self
      rcases rank_lt.1 hlt with hlt | ⟨heq, -⟩
      · exact absurd hle hlt.not_ge
      · exact heq.symm
    have hfilter := h.bucket i hx.lt
    rw [List.filter_cons, if_pos (by simp [← htime, hhash])] at hfilter
    have hhead := hx.head
    rw [hfilter, List.head?_cons] at hhead
    exact absurd (Option.some.inj hhead) fun heq => by rw [heq] at hlt; exact lt_irrefl _ hlt

omit [IsStrictOrderedRing κ] in
theorem Rel.head_nil (h : Rel c []) : c.head = (none, c) := by
  simp [Cal.head, h.qsize]

theorem Rel.head_cons (h : Rel c (e :: l)) :
    ∃ c', c.head = (some e, c') ∧ c'.lastbucket = c'.hash e.time ∧ Rel c' (e :: l) := by
  obtain ⟨x, i, hfind, hfirst⟩ := h.find (List.cons_ne_nil e l)
  obtain ⟨rfl, rfl⟩ := hfirst.eq h
  have hsize : c.qsize ≠ 0 := by
    rw [h.qsize, List.length_cons]
    omega
  refine ⟨{ c with lastbucket := c.hash x.time, cal_clock := x.time }, by simp only [Cal.head, if_neg hsize, hfind], rfl, ?_⟩
  exact ⟨h.stable, h.width, h.nbuckets, h.diff0, h.diff1, h.diff2, h.bucket, h.count, h.stat, h.qsize, rfl,
    h.nonneg List.mem_cons_self, hfirst.le⟩

/-! ## Removing -/

omit [IsStrictOrderedRing κ] in
@[simp] theorem take_hash (c : Cal ι η κ) (i : ℕ) (q : List (Event ι η κ)) (last : Bool) (t : κ) :
    (c.take i q last).hash t = c.hash t := rfl

omit [Field κ] [LinearOrder κ] [IsStrictOrderedRing κ] [FloorSemiring κ] in
theorem take_self (c : Cal ι η κ) (i : ℕ) (q : List (Event ι η κ)) (last : Bool) :
    (c.take i q last).buckets i = ⟨q, (c.buckets i).count_ - if last then 1 else 0⟩ := Function.update_self ..

omit [Field κ] [LinearOrder κ] [IsStrictOrderedRing κ] [FloorSemiring κ] in
theorem take_of_ne (c : Cal ι η κ) {i j : ℕ} (hij : j ≠ i) (q : List (Event ι η κ)) (last : Bool) :
    (c.take i q last).buckets j = c.buckets j := Function.update_of_ne hij ..

/-- Both `deque` and `cancel` keep the calendar. `q` is the bucket without `e`, `last`: was it the last of its time? -/
theorem Rel.take (h : Rel c l) (hperm : l.Perm (e :: l')) (hl' : Stable Event.time Event.seq l')
    {q : List (Event ι η κ)} (hq : (c.buckets (c.hash e.time)).list_.Perm (e :: q)) (hqs : Stable Event.time Event.seq q)
    {last : Bool} (hlast : last = true ↔ e.time ∉ times q) : Rel (c.take (c.hash e.time) q last) l' := by
  have hel : e ∈ l := hperm.mem_iff.2 List.mem_cons_self
  have hi := h.hash_lt (h.nonneg hel)
  have hnodup : (e :: l').Nodup := hperm.nodup_iff.1 h.stable.nodup
  have hsub : ∀ x ∈ l', x ∈ l := fun x hx => hperm.mem_iff.2 (List.mem_cons_of_mem e hx)
  have htimes : e.time ∈ times q ↔ e.time ∈ times l' := by
    have hqnodup : (e :: q).Nodup := hq.nodup_iff.1 (h.stable_bucket hi).nodup
    simp only [mem_times]
    constructor
    · rintro ⟨y, hy, hyt⟩
      have hyl : y ∈ l := ((h.mem_bucket hi).1 (hq.mem_iff.2 (List.mem_cons_of_mem e hy))).1
      rcases List.mem_cons.1 (hperm.mem_iff.1 hyl) with rfl | hyl
      · exact absurd hy (List.nodup_cons.1 hqnodup).1
      · exact ⟨y, hyl, hyt⟩
    · rintro ⟨y, hy, hyt⟩
      have hyb : y ∈ (c.buckets (c.hash e.time)).list_ := (h.mem_bucket hi).2 ⟨hsub y hy, by rw [hyt]⟩
      rcases List.mem_cons.1 (hq.mem_iff.1 hyb) with rfl | hyq
      · exact absurd hy (List.nodup_cons.1 hnodup).1
      · exact ⟨y, hyq, hyt⟩
  refine ⟨hl', h.width, h.nbuckets, h.diff0, h.diff1, h.diff2, fun j hj => ?_, fun j hj => ?_, ?_, ?_, h.last, h.clock,
    fun x hx => h.future x (hsub x hx)⟩
  · simp only [take_hash]
    have hfilter := hperm.filter (c.hash ·.time = j)
    by_cases hji : j = c.hash e.time
    · subst hji
      rw [take_self]
      refine hqs.eq_of_perm (hl'.sublist List.filter_sublist) ((List.perm_cons e).1 ?_)
      rw [← h.bucket _ hi, List.filter_cons, if_pos (by simp)] at hfilter
      exact hq.symm.trans hfilter
    · rw [take_of_ne c hji]
      refine (h.stable_bucket hj).eq_of_perm (hl'.sublist List.filter_sublist) ?_
      rwa [← h.bucket j hj, List.filter_cons, if_neg (by simpa using Ne.symm hji)] at hfilter
  · by_cases hji : j = c.hash e.time
    · subst hji
      rw [take_self, h.count _ hj, card_times hq hlast, add_sub_cancel_right]
    · rw [take_of_ne c hji, h.count j hj]
  · have hstat : (c.take (c.hash e.time) q last).stat_qsize = c.stat_qsize - if last then 1 else 0 := rfl
    rw [hstat, h.stat, card_times hperm (hlast.trans (not_congr htimes)), add_sub_cancel_right]
  · have hqsize : (c.take (c.hash e.time) q last).qsize = c.qsize - 1 := rfl
    rw [hqsize, h.qsize, hperm.length_eq, List.length_cons]
    push_cast
    rw [add_sub_cancel_right]

theorem Rel.deque_cons (h : Rel c (e :: l)) : ∃ c', c.deque = some (e, c') ∧ Rel c' l := by
  obtain ⟨c', hhead, hlast, hrel⟩ := h.head_cons
  simp only [Cal.deque, hhead]
  have hi := hrel.hash_lt (hrel.nonneg (e := e) List.mem_cons_self)
  -- the event is in front of its bucket
  have hbucket := hrel.bucket _ hi
  rw [List.filter_cons, if_pos (by simp)] at hbucket
  have hstable := hrel.stable_bucket hi
  rw [hlast, hbucket, List.tail_cons]
  rw [hbucket] at hstable
  generalize l.filter (c'.hash ·.time = c'.hash e.time) = rest at hbucket hstable
  have hle : ∀ y ∈ rest, e.time ≤ y.time := (List.pairwise_cons.1 hstable.multimap).1
  have hflag : decide (rest = [] ∨ (rest.headD e).time ≠ e.time) = true ↔ e.time ∉ times rest := by
    rw [decide_eq_true_iff]
    by_cases hempty : rest = []
    · simp [hempty, times]
    · rw [or_iff_right hempty, headD_time_ne hstable.tail.multimap hle (fun h => absurd h hempty)]
  have htaken := hrel.take (.refl _) hrel.stable.tail (q := rest) (by rw [hbucket]) hstable.tail hflag
  refine ⟨_, rfl, ?_⟩
  split_ifs with hresize
  · exact htaken.resize (htaken.newwidth_pos (by have := htaken.nbuckets; omega))
  · exact htaken

omit [Field κ] [IsStrictOrderedRing κ] [FloorSemiring κ] in
/-- Neither neighbour in the circle has the time of `e`: no other event has it. -/
theorem neighbours {front back : List (Event ι η κ)} (hs : Multimap.Sorted Event.time (front ++ e :: back))
    (he : e ∉ front ++ back) :
    (back.headD (front.headD e) = e ∨
      ((back.headD (front.headD e)).time ≠ e.time ∧ (front.getLastD (back.getLastD e)).time ≠ e.time)) ↔
    e.time ∉ times (front ++ back) := by
  obtain ⟨hfront, hback, hcross⟩ := List.pairwise_append.1 hs
  have hle : ∀ a ∈ front, a.time ≤ e.time := fun a ha => hcross a ha e List.mem_cons_self
  have hge : ∀ b ∈ back, e.time ≤ b.time := (List.pairwise_cons.1 hback).1
  by_cases hempty : front ++ back = []
  · obtain ⟨rfl, rfl⟩ := List.append_eq_nil_iff.1 hempty
    simp [times]
  · have hnext : back.headD (front.headD e) ∈ front ++ back := by
      cases back with
      | nil =>
        cases front with
        | nil => exact absurd rfl hempty
        | cons a front => simp
      | cons b back => simp
    have hprev : front.getLastD (back.getLastD e) ∈ front ++ back := by
      cases front with
      | nil =>
        cases back with
        | nil => exact absurd rfl hempty
        | cons b back =>
          rw [List.getLastD_nil, List.getLastD_cons, List.nil_append]
          exact List.getLastD_mem_cons
      | cons a front =>
        rw [List.getLastD_cons]
        exact List.mem_append_left _ List.getLastD_mem_cons
    rw [or_iff_right (fun heq : _ = e => he (heq ▸ hnext))]
    constructor
    · rintro ⟨hn, hp⟩ ht
      rcases times_append.1 ht with ht | ht
      · have hne : front ≠ [] := by rintro rfl; simp [times] at ht
        exact (getLastD_time_ne hfront hle (fun h => absurd h hne)).1 hp ht
      · have hne : back ≠ [] := by rintro rfl; simp [times] at ht
        exact (headD_time_ne (List.pairwise_cons.1 hback).2 hge (fun h => absurd h hne)).1 hn ht
    · intro ht
      exact ⟨fun heq => ht (mem_times.2 ⟨_, hnext, heq⟩), fun heq => ht (mem_times.2 ⟨_, hprev, heq⟩)⟩

/-- `cancel` removes the event; no assertion fails. -/
theorem Rel.cancel [DecidableEq ι] [DecidableEq η] (h : Rel c l) (he : e ∈ l) :
    ∃ c', c.cancel e = some c' ∧ Rel c' (l.erase e) := by
  have hi := h.hash_lt (h.nonneg he)
  have hmem : e ∈ (c.buckets (c.hash e.time)).list_ := (h.mem_bucket hi).2 ⟨he, rfl⟩
  have hstable := h.stable_bucket hi
  simp only [Cal.cancel, not_not.2 hmem, if_false]
  obtain ⟨front, back, hlist, hnot⟩ : ∃ front back, (c.buckets (c.hash e.time)).list_ = front ++ e :: back ∧ e ∉ front := by
    obtain ⟨front, back, hnot, hlist, -⟩ := List.exists_erase_eq hmem
    exact ⟨front, back, hlist, hnot⟩
  have hall : ∀ a ∈ front, decide (a ≠ e) = true := fun a ha => by simpa using ne_of_mem_of_not_mem ha hnot
  have htake : (front ++ e :: back).takeWhile (fun x => decide (x ≠ e)) = front := by
    rw [List.takeWhile_append_of_pos hall]
    simp
  have hdrop : (front ++ e :: back).dropWhile (fun x => decide (x ≠ e)) = e :: back := by
    rw [List.dropWhile_append_of_pos hall]
    simp
  rw [hlist] at hstable
  rw [hlist, htake, hdrop, List.tail_cons]
  have hq : e ∉ front ++ back := (List.nodup_cons.1 (List.perm_middle.nodup_iff.1 hstable.nodup)).1
  have hflag := (decide_eq_true_iff).trans (neighbours hstable.multimap hq)
  have hqs : Stable Event.time Event.seq (front ++ back) :=
    hstable.sublist ((List.sublist_cons_self e back).append_left front)
  have htaken := h.take (List.perm_cons_erase he) (h.stable.erase e) (hlist ▸ List.perm_middle) hqs hflag
  generalize hc' : c.take (c.hash e.time) (front ++ back) _ = c' at htaken
  have hi' : c.hash e.time < c'.nbuckets := by rw [← hc']; exact hi
  have hcount := htaken.count _ hi'
  refine ⟨c', if_neg ?_, htaken⟩
  rintro (hneg | hneg | ⟨hzero, hne⟩)
  · rw [htaken.stat] at hneg
    omega
  · rw [hcount] at hneg
    omega
  · rw [hcount, Nat.cast_eq_zero, Finset.card_eq_zero] at hzero
    obtain ⟨x, hx⟩ := List.exists_mem_of_ne_nil _ hne
    have hmem : x.time ∈ times (c'.buckets (c.hash e.time)).list_ := mem_times.2 ⟨x, hx, rfl⟩
    rw [hzero] at hmem
    exact absurd hmem (Finset.notMem_empty _)

theorem Rel.lookup (h : Rel c l) {uid : ℤ} (hunique : Unique Event.uid l uid) :
    c.lookup uid = l.find? (·.uid = uid) := by
  have hperm : ((List.range c.nbuckets).flatMap fun i => (c.buckets i).list_).Perm l := by
    refine List.Perm.trans ?_ h.events.1
    exact List.Perm.flatMap_left _ fun i _ => (List.reverse_perm _).symm
  rw [← hunique.find?_of_perm hperm, Cal.lookup, List.find?_flatMap]

/-- `CalendarScheduler` is a stable queue for times that are not negative. -/
theorem refines [DecidableEq ι] [DecidableEq η] (cap : ℕ) :
    Refines (CalendarScheduler : Impl (Event ι η κ) ℤ _) (fun e => 0 ≤ e.time) cap
      fun _ c l => Rel c l where
  init := rel_reinit le_rfl one_pos le_rfl
  insert := by
    intro n c l e h _ he hnew _
    exact h.insert he hnew
  cancel := by
    intro n c l e h _ he
    exact h.cancel he
  deque_nil := by
    intro n c h
    simp only [CalendarScheduler, Cal.deque, h.head_nil]
  deque_cons := by
    intro n c e l h _
    exact h.deque_cons
  head := by
    intro n c l h _
    cases l with
    | nil =>
      have hhead : CalendarScheduler.head c = (none, c) := h.head_nil
      rw [hhead]
      exact ⟨rfl, h⟩
    | cons e l =>
      obtain ⟨c', hc', -, hrel⟩ := h.head_cons
      have hhead : CalendarScheduler.head c = (some e, c') := hc'
      rw [hhead]
      exact ⟨rfl, hrel⟩
  lookup := by
    intro n c l u h _ hunique
    exact h.lookup hunique

end Cal

/-- With times and delays that are not negative, `CalendarScheduler` dispatches the events that
`ListScheduler` dispatches, in the same order, and answers every cancel and lookup the same: hashing by
day, the search from today, both ways of resizing and the width it chooses change nothing. -/
theorem calendar_trace_eq [DecidableEq ι] [DecidableEq η] [Field κ] [LinearOrder κ] [IsStrictOrderedRing κ]
    [FloorSemiring κ] (uidMax : ℤ) (ops : List (Op ι η κ)) (hops : ∀ op ∈ ops, op.Ok (0 ≤ ·) (0 ≤ ·) True) :
    trace CalendarScheduler uidMax (St.init CalendarScheduler) ops =
      trace ListScheduler uidMax (St.init ListScheduler) ops :=
  trace_eq ((Cal.refines (insertions ops)).restrict fun _ he => he.1) le_rfl (fun _ _ hc hd => add_nonneg hc hd) ops hops
    le_rfl

/-- Events of three years, the second of them cancelled. -/
theorem calendar_trace_eq_three :
    trace (CalendarScheduler : Impl (Event ℕ ℕ ℚ) ℤ _) 9 (St.init CalendarScheduler)
      [.schedule (some 0) 1 9, .schedule (some 0) 2 5, .insert 0 1, .cancel 2, .dispatch, .dispatch] =
    trace ListScheduler 9 (St.init ListScheduler)
      [.schedule (some 0) 1 9, .schedule (some 0) 2 5, .insert 0 1, .cancel 2, .dispatch, .dispatch] :=
  calendar_trace_eq 9 _ (by simp [Op.Ok])

end Ns2.Sched
