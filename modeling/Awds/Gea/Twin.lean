import Awds.Gea.Program
import Awds.Ns2.Invariant

/-!
# The two backends side by side

`Twin` relates a state of the POSIX loop and a state of the ns-2 backend that run one program.
`live` are the entries of `eventList` whose callback was not called, `uncalled` those of the running
dependency batch still to be called, `armed` the triggers that the next batch will be collected for.

| POSIX | ns-2 |
| --- | --- |
| `live`, in the order of `eventList`  | the scheduler's queue, less the timers of `uncalled` |
| the armed entries of `live`          | `pendingList`, in this order |
| `uncalled`                           | the rest of `todo` |
| a `DependHandle` in `live` or `uncalled` | a timer that is `TIMER_PENDING` |
| the `status` of a registered `DependHandle` | the same |

What a step does to both sides is one lemma for each operation: `Twin.waitFor`, `Twin.comply`,
`Twin.wake`, `Twin.collect`, `Twin.run`.
-/

namespace Gea

/-- What the ns-2 scheduler holds for a registration. -/
def scheduled (dep : Handle → Bool) (r : Reg) : Ns2.Scheduled :=
  ⟨r.timeout, if dep r.h then .timer r.h else .gea r⟩

/-- Not the timer of one of `uncalled`. -/
def waits (uncalled : List Reg) (x : Ns2.Scheduled) : Bool := uncalled.all fun r => x.ev ≠ .timer r.h

/-- The registrations of the POSIX side. -/
structure Book (dep : Handle → Bool) (live uncalled : List Reg) (armed : Handle → Bool) (now : AbsTime)
    (p : Posix.St) : Prop where
  nodup : ((live ++ uncalled).map Reg.h).Nodup
  future : ∀ r ∈ live, now ≤ r.timeout
  latched : ∀ d, armed d = true → dep d = true ∧ ∃ r ∈ live, r.h = d
  status : ∀ r ∈ live, dep r.h = true → p.status r.h = if armed r.h then .ready else .blocked
  depend : ∀ r ∈ uncalled, dep r.h = true
  pending : ∀ r ∈ live ++ uncalled, r ∈ p.regs ∧ r ∉ p.calls.map Prod.fst
  known : ∀ r ∈ p.calls.map Prod.fst, r ∈ p.regs
  ids : ∀ r ∈ p.regs, r.id < p.regs.length

structure Twin (dep : Handle → Bool) (live uncalled : List Reg) (armed : Handle → Bool) (now : AbsTime)
    (p : Posix.St) (n : Ns2.St) : Prop where
  book : Book dep live uncalled armed now p
  clock : n.clock = now
  last : n.lastEventTime = p.lastEventTime
  failed : n.failed = none
  regs : n.regs = p.regs
  calls : n.calls = p.calls
  status : ∀ d, dep d = true → (∃ r ∈ p.regs, r.h = d) → n.status d = p.status d
  queue : n.queue.filter (waits uncalled) = live.map (scheduled dep)
  sorted : Multimap.Sorted Ns2.Scheduled.time n.queue
  timer : ∀ h, n.timer h = .pending ↔ dep h = true ∧ ∃ r ∈ live ++ uncalled, r.h = h
  slot : ∀ r ∈ live ++ uncalled, dep r.h = true → n.slot r.h = some r
  pending : n.pendingList.map Ns2.EventDescr.reg = live.filter fun r => armed r.h

variable {dep : Handle → Bool} {live uncalled : List Reg} {armed : Handle → Bool} {now : AbsTime}
variable {p p' : Posix.St} {n n' : Ns2.St}

theorem waits_gea (r : Reg) (t : AbsTime) : waits uncalled ⟨t, .gea r⟩ = true := by
  simp [waits]

theorem waits_timer {h : Handle} {t : AbsTime} : waits uncalled ⟨t, .timer h⟩ = true ↔ ∀ r ∈ uncalled, r.h ≠ h := by
  simp only [waits, List.all_eq_true, decide_eq_true_eq, ne_eq, Ns2.Ev.timer.injEq]
  exact forall₂_congr fun r _ => not_congr eq_comm

/-- An entry of `live` waits, also when a batch is running. -/
theorem waits_scheduled {r : Reg} (hr : ∀ u ∈ uncalled, u.h ≠ r.h) : waits uncalled (scheduled dep r) = true := by
  unfold scheduled
  split
  · exact waits_timer.2 hr
  · exact waits_gea _ _

theorem Book.unique (h : Book dep live uncalled armed now p) {r r' : Reg} (hr : r ∈ live ++ uncalled)
    (hr' : r' ∈ live ++ uncalled) (he : r.h = r'.h) : r = r' :=
  List.inj_on_of_nodup_map h.nodup hr hr' he

theorem Book.registered (h : Book dep live uncalled armed now p) {r : Reg} (hr : r ∈ live ++ uncalled) :
    ∃ x ∈ p.regs, x.h = r.h :=
  ⟨r, (h.pending r hr).1, rfl⟩

/-- Nothing is outstanding on the handle. -/
def Free (p : Posix.St) (h : Handle) : Prop := ∀ r ∈ p.regs, r.h = h → r ∈ p.calls.map Prod.fst

theorem Book.free (hb : Book dep live uncalled armed now p) {h : Handle} (hf : Free p h) :
    ∀ r ∈ live ++ uncalled, r.h ≠ h := by
  intro r hr he
  obtain ⟨hm, hn⟩ := hb.pending r hr
  exact hn (hf r hm he)

theorem Book.free_armed (hb : Book dep live uncalled armed now p) {h : Handle} (hf : Free p h) : armed h = false := by
  by_contra ha
  obtain ⟨-, r, hr, he⟩ := hb.latched h (by simpa using ha)
  exact hb.free hf r (List.mem_append_left _ hr) he

/-! ## `waitFor` -/

theorem Book.waitFor (hb : Book dep live uncalled armed now p) {h : Handle} {t : AbsTime} {e : Event} {data : Data}
    (ht : now ≤ t) (hf : Free p h) :
    Book dep (Multimap.insert Reg.timeout ⟨p.made, h, t, e, data⟩ live) uncalled armed now (p.waitFor h t e data) := by
  have hperm := Multimap.insert_perm Reg.timeout (⟨p.made, h, t, e, data⟩ : Reg) live
  have hmem : ∀ r, r ∈ Multimap.insert Reg.timeout ⟨p.made, h, t, e, data⟩ live ++ uncalled ↔
      r = ⟨p.made, h, t, e, data⟩ ∨ r ∈ live ++ uncalled := by
    intro r
    simp only [List.mem_append, Multimap.mem_insert, or_assoc]
  refine ⟨?_, ?_, ?_, ?_, hb.depend, ?_, ?_, ?_⟩
  · rw [((hperm.append_right uncalled).map Reg.h).nodup_iff]
    refine List.nodup_cons.2 ⟨fun hm => ?_, hb.nodup⟩
    obtain ⟨r, hr, he⟩ := List.mem_map.1 hm
    exact hb.free hf r hr he
  · intro r hr
    rcases Multimap.mem_insert.1 hr with rfl | hr
    · exact ht
    · exact hb.future r hr
  · intro d hd
    obtain ⟨hdep, r, hr, he⟩ := hb.latched d hd
    exact ⟨hdep, r, Multimap.mem_insert.2 (.inr hr), he⟩
  · intro r hr hd
    rcases Multimap.mem_insert.1 hr with rfl | hr
    · simp [Posix.St.waitFor, hb.free_armed hf]
    · have hne : r.h ≠ h := hb.free hf r (List.mem_append_left _ hr)
      simp only [Posix.St.waitFor, Function.update_of_ne hne]
      exact hb.status r hr hd
  · intro r hr
    rcases (hmem r).1 hr with rfl | hr
    · refine ⟨by simp [Posix.St.waitFor], fun hc => ?_⟩
      have := hb.ids _ (hb.known _ hc)
      simp only [Posix.St.made] at this
      omega
    · obtain ⟨hm, hn⟩ := hb.pending r hr
      exact ⟨List.mem_append_left _ hm, hn⟩
  · intro r hr
    exact List.mem_append_left _ (hb.known r hr)
  · intro r hr
    simp only [Posix.St.waitFor, List.length_append, List.length_singleton] at hr ⊢
    rcases List.mem_append.1 hr with hr | hr
    · have := hb.ids r hr
      omega
    · rw [List.mem_singleton.1 hr]
      exact Nat.lt_succ_self _

/-- `waitFor` of the ns-2 backend, for both kinds of handles. -/
theorem ns2_waitFor {node : Ns2.Node} {h : Handle} {t : AbsTime} {e : Event} {data : Data}
    (hn : dep h = true → n.timer h ≠ .pending) :
    n.waitFor (Ns2.handles dep node) h t e data =
      { n with
        status := Function.update n.status h .blocked
        regs := n.regs ++ [⟨n.regs.length, h, t, e, data⟩]
        slot := if dep h then Function.update n.slot h (some ⟨n.regs.length, h, t, e, data⟩) else n.slot
        timer := if dep h then Function.update n.timer h .pending else n.timer
        queue := Multimap.insert Ns2.Scheduled.time (scheduled dep ⟨n.regs.length, h, t, e, data⟩) n.queue } := by
  by_cases hd : dep h = true
  · simp only [Ns2.St.waitFor, Ns2.handles, Ns2.St.activate, Ns2.St.resched, scheduled, hd, if_true, if_neg (hn hd)]
  · simp only [Ns2.St.waitFor, Ns2.handles, Ns2.St.insert, scheduled, if_neg hd]

theorem Twin.waitFor (hT : Twin dep live uncalled armed now p n) (node : Ns2.Node) {h : Handle} {t : AbsTime}
    (e : Event) (data : Data) (ht : now ≤ t) (hf : Free p h) :
    Twin dep (Multimap.insert Reg.timeout ⟨p.made, h, t, e, data⟩ live) uncalled armed now (p.waitFor h t e data)
      (n.waitFor (Ns2.handles dep node) h t e data) := by
  have hfree := hT.book.free hf
  have hlen : n.regs.length = p.made := congrArg List.length hT.regs
  have hn : dep h = true → n.timer h ≠ .pending := by
    intro _ hp
    obtain ⟨-, r, hr, he⟩ := (hT.timer h).1 hp
    exact hfree r hr he
  have hmem : ∀ r, r ∈ Multimap.insert Reg.timeout ⟨p.made, h, t, e, data⟩ live ++ uncalled ↔
      r = ⟨p.made, h, t, e, data⟩ ∨ r ∈ live ++ uncalled := by
    intro r
    simp only [List.mem_append, Multimap.mem_insert, or_assoc]
  have hother : ∀ k, k ≠ h → ((∃ r ∈ Multimap.insert Reg.timeout ⟨p.made, h, t, e, data⟩ live ++ uncalled, r.h = k) ↔
      ∃ r ∈ live ++ uncalled, r.h = k) := by
    intro k hk
    constructor
    · rintro ⟨r, hr, he⟩
      rcases (hmem r).1 hr with rfl | hr
      · exact absurd he.symm hk
      · exact ⟨r, hr, he⟩
    · rintro ⟨r, hr, he⟩
      exact ⟨r, (hmem r).2 (.inr hr), he⟩
  rw [ns2_waitFor hn, hlen]
  refine ⟨hT.book.waitFor ht hf, hT.clock, hT.last, hT.failed, ?_, hT.calls, ?_, ?_, ?_, ?_, ?_, ?_⟩
  · simp only [Posix.St.waitFor, hT.regs]
  · intro d hd hreg
    by_cases he : d = h
    · subst he; simp [Posix.St.waitFor]
    · simp only [Posix.St.waitFor, Function.update_of_ne he]
      obtain ⟨r, hr, hrd⟩ := hreg
      rcases List.mem_append.1 hr with hr | hr
      · exact hT.status d hd ⟨r, hr, hrd⟩
      · rw [List.mem_singleton.1 hr] at hrd
        exact absurd hrd.symm he
  · have hw : waits uncalled (scheduled dep ⟨p.made, h, t, e, data⟩) = true :=
      waits_scheduled fun u hu => hfree u (List.mem_append_right _ hu)
    dsimp only
    rw [Multimap.filter_insert hw hT.sorted, hT.queue]
    exact Multimap.insert_map (fun _ => rfl) _ _
  · exact Multimap.sorted_insert hT.sorted
  · intro k
    by_cases hk : k = h
    · subst hk
      by_cases hd : dep k = true
      · simp only [hd, if_true, Function.update_self, true_and, true_iff]
        exact ⟨_, (hmem _).2 (.inl rfl), rfl⟩
      · simp only [hd, Bool.false_eq_true, if_false, false_and, hT.timer k]
    · rw [hother k hk, ← hT.timer k]
      dsimp only
      split
      · rw [Function.update_of_ne hk]
      · rfl
  · intro r hr hd
    rcases (hmem r).1 hr with rfl | hr
    · simp only [if_pos hd, Function.update_self]
    · have hne : r.h ≠ h := hfree r hr
      have hs := hT.slot r hr hd
      dsimp only
      split
      · rw [Function.update_of_ne hne, hs]
      · exact hs
  · have ha : armed h = false := hT.book.free_armed hf
    refine hT.pending.trans (Multimap.filter_insert_of_neg ?_ live).symm
    exact ha

/-! ## `complied` -/

/-- No entry behind that of `d` is armed. -/
def Last (live : List Reg) (armed : Handle → Bool) (d : Handle) : Prop :=
  ∀ r ∈ (live.dropWhile fun r => r.h ≠ d).tail, armed r.h = false

theorem split_dropWhile {r : Reg} {l₁ l₂ : List Reg} (hn : ((l₁ ++ r :: l₂).map Reg.h).Nodup) :
    (l₁ ++ r :: l₂).dropWhile (fun x => x.h ≠ r.h) = r :: l₂ := by
  rw [List.dropWhile_append_of_pos, List.dropWhile_cons_of_neg (by simp)]
  intro x hx
  rw [List.map_append, List.nodup_append] at hn
  simpa using hn.2.2 _ (List.mem_map_of_mem hx) r.h (by simp)

/-- The entry that is armed last comes last in the next batch. -/
theorem filter_armed {r : Reg} (hr : r ∈ live) (hn : (live.map Reg.h).Nodup) (ha : armed r.h = false)
    (hl : Last live armed r.h) :
    live.filter (fun x => Function.update armed r.h true x.h) = live.filter (fun x => armed x.h) ++ [r] := by
  obtain ⟨l₁, l₂, rfl⟩ := List.append_of_mem hr
  rw [Last, split_dropWhile hn, List.tail_cons] at hl
  have hnd := hn
  rw [List.map_append, List.map_cons, List.nodup_append, List.nodup_cons] at hnd
  have h1 : l₁.filter (fun x => Function.update armed r.h true x.h) = l₁.filter fun x => armed x.h := by
    refine List.filter_congr fun x hx => ?_
    rw [Function.update_of_ne]
    exact hnd.2.2 _ (List.mem_map_of_mem hx) _ List.mem_cons_self
  have h2 : l₂.filter (fun x => Function.update armed r.h true x.h) = [] := by
    refine List.filter_eq_nil_iff.2 fun x hx => ?_
    rw [Function.update_of_ne, hl x hx]
    · simp
    · exact fun he => hnd.2.1.1 (he ▸ List.mem_map_of_mem hx)
  have h2' : l₂.filter (fun x => armed x.h) = [] := by
    refine List.filter_eq_nil_iff.2 fun x hx => ?_
    simp [hl x hx]
  rw [List.filter_append, List.filter_append, List.filter_cons, List.filter_cons, h1, h2, h2']
  simp [ha]

/-- `complied` on the handle of a waiting entry. -/
theorem Twin.comply (hT : Twin dep live uncalled armed now p n) {r : Reg} (hr : r ∈ live) (hd : dep r.h = true)
    (ha : armed r.h = false) (hl : Last live armed r.h) :
    Twin dep live uncalled (Function.update armed r.h true) now (p.complied r.h) (n.complied r.h) := by
  have hb := hT.book
  have hmem : r ∈ live ++ uncalled := List.mem_append_left _ hr
  have hst : n.status r.h = .blocked := by
    rw [hT.status _ hd (hb.registered hmem), hb.status r hr hd, ha]; rfl
  have hne : ∀ x ∈ live, x ≠ r → x.h ≠ r.h := fun x hx hn he =>
    hn (hb.unique (List.mem_append_left _ hx) hmem he)
  have hn : (live.map Reg.h).Nodup := by
    have := hb.nodup
    rw [List.map_append, List.nodup_append] at this
    exact this.1
  simp only [Ns2.St.complied, hst, hT.slot r hmem hd, ne_eq, not_true_eq_false, if_false]
  refine ⟨⟨hb.nodup, hb.future, ?_, ?_, hb.depend, hb.pending, hb.known, hb.ids⟩, hT.clock, hT.last, hT.failed, hT.regs,
    hT.calls, ?_, hT.queue, hT.sorted, hT.timer, hT.slot, ?_⟩
  · intro d h
    by_cases he : d = r.h
    · exact ⟨he ▸ hd, r, hr, he.symm⟩
    · rw [Function.update_of_ne he] at h
      exact hb.latched d h
  · intro x hx hxd
    by_cases he : x = r
    · subst he; simp [Posix.St.complied]
    · simp only [Posix.St.complied, Function.update_of_ne (hne x hx he)]
      exact hb.status x hx hxd
  · intro d h hreg
    by_cases he : d = r.h
    · subst he; simp [Posix.St.complied]
    · simp only [Posix.St.complied, Function.update_of_ne he]
      exact hT.status d h hreg
  · rw [List.map_append, hT.pending, filter_armed hr hn ha hl]
    rfl

/-- `complied` on a handle that is `Ready` does nothing, but for the latch. -/
theorem Twin.comply_ready (hT : Twin dep live uncalled armed now p n) {d : Handle} (hd : dep d = true)
    (hreg : ∃ r ∈ p.regs, r.h = d) (hs : p.status d = .ready) :
    Twin dep live uncalled armed now (p.complied d) (n.complied d) := by
  have hn : n.complied d = n := by
    simp only [Ns2.St.complied, hT.status d hd hreg, hs, ne_eq, reduceCtorEq, not_false_eq_true, if_true]
  have hp : (p.complied d).status = p.status := by
    simp only [Posix.St.complied]
    exact hs ▸ Function.update_eq_self d p.status
  have hb := hT.book
  rw [hn]
  exact ⟨⟨hb.nodup, hb.future, hb.latched, hp ▸ hb.status, hb.depend, hb.pending, hb.known, hb.ids⟩, hT.clock, hT.last,
    hT.failed, hT.regs, hT.calls, hp ▸ hT.status, hT.queue, hT.sorted, hT.timer, hT.slot, hT.pending⟩

/-! ## A callback is called -/

/-- The callback of an outstanding registration is called; the others stay outstanding. -/
theorem Book.pending_call (hb : Book dep live uncalled armed now p) {r x : Reg} {t : AbsTime}
    (hc : p'.calls = p.calls ++ [(r, t)]) (hr : p'.regs = p.regs) (hx : x ∈ live ++ uncalled) (hne : x ≠ r) :
    x ∈ p'.regs ∧ x ∉ p'.calls.map Prod.fst := by
  obtain ⟨hm, hn⟩ := hb.pending x hx
  refine ⟨hr ▸ hm, fun h => ?_⟩
  rw [hc, List.map_append, List.mem_append] at h
  rcases h with h | h
  · exact hn h
  · exact hne (List.mem_singleton.1 h)

theorem Book.known_call (hb : Book dep live uncalled armed now p) {r : Reg} {t : AbsTime}
    (hc : p'.calls = p.calls ++ [(r, t)]) (hr : p'.regs = p.regs) (hm : r ∈ live ++ uncalled) :
    ∀ x ∈ p'.calls.map Prod.fst, x ∈ p'.regs := by
  intro x hx
  rw [hc, List.map_append, List.mem_append] at hx
  rw [hr]
  rcases hx with hx | hx
  · exact hb.known x hx
  · rw [List.mem_singleton.1 hx]
    exact (hb.pending r hm).1

/-- The front entry's deadline is there. -/
theorem Book.wake {r : Reg} (hb : Book dep (r :: live) [] armed now p) (hs : ∀ x ∈ live, r.timeout ≤ x.timeout)
    (hf : dep r.h = true → ∀ d, armed d = false) : Book dep live [] armed r.timeout (Posix.timeoutPhase p r) := by
  have hnd : r.h ∉ live.map Reg.h ∧ (live.map Reg.h).Nodup := by
    simpa only [List.append_nil, List.map_cons, List.nodup_cons] using hb.nodup
  have hne : ∀ x ∈ live, x.h ≠ r.h := fun x hx he => hnd.1 (he ▸ List.mem_map_of_mem hx)
  have hmem : r ∈ (r :: live) ++ ([] : List Reg) := by simp
  have hc : (Posix.timeoutPhase p r).calls = p.calls ++ [(r, r.timeout)] := by
    simp [Posix.St.calls, Posix.timeoutPhase, Posix.St.invoke]
  refine ⟨by simpa using hnd.2, hs, ?_, ?_, hb.depend, ?_, hb.known_call hc rfl hmem, hb.ids⟩
  · intro d hd
    obtain ⟨hdep, x, hx, he⟩ := hb.latched d hd
    rcases List.mem_cons.1 hx with rfl | hx
    · rw [hf (he ▸ hdep) d] at hd
      cases hd
    · exact ⟨hdep, x, hx, he⟩
  · intro x hx hd
    simp only [Posix.timeoutPhase, Posix.St.invoke, Function.update_of_ne (hne x hx)]
    exact hb.status x (List.mem_cons_of_mem _ hx) hd
  · intro x hx
    rw [List.append_nil] at hx
    exact hb.pending_call hc rfl (by simp [hx]) fun he => hne x hx (he ▸ rfl)

/-- The scheduler takes the front of its queue: what it holds for the registration `r`. -/
theorem ns2_dispatch {node : Ns2.Node} {r : Reg} {q : List Ns2.Scheduled} (hq : n.queue = scheduled dep r :: q)
    (ht : n.clock ≤ r.timeout) (hd : dep r.h = true → n.timer r.h = .pending ∧ n.slot r.h = some r) :
    Ns2.dispatch (Ns2.handles dep node) n (scheduled dep r) =
      if dep r.h then
        { n with
          queue := q
          clock := r.timeout
          timer := Function.update n.timer r.h .handling
          status := Function.update n.status r.h .timeout
          lastEventTime := r.timeout }.call r r.timeout .expire (.timer r.h :: n.stack)
      else
        { n with queue := q, clock := r.timeout, currentNode := node, lastEventTime := r.timeout }.call r r.timeout
          .handle (.pend r.timeout [] :: n.stack) := by
  have hlt : ¬(scheduled dep r).time < n.clock := not_lt.2 ht
  simp only [Ns2.dispatch, if_neg hlt, hq, List.erase_cons_head]
  by_cases h : dep r.h = true
  · obtain ⟨hp, hs⟩ := hd h
    simp only [scheduled, h, if_true, Ns2.timerHandle, hp, Ns2.handles, Ns2.expire, hs]
  · simp only [scheduled, if_neg h, Ns2.handle, Ns2.handles]

theorem Twin.queue_nil (hT : Twin dep live [] armed now p n) : n.queue = live.map (scheduled dep) := by
  rw [← hT.queue, List.filter_eq_self.2]
  intro x _
  rfl

/-- The deadline of the front entry is reached on both sides, when it is a `Blocker`'s or when
nothing is armed. -/
theorem Twin.wake {r : Reg} (hT : Twin dep (r :: live) [] armed now p n) {node : Ns2.Node}
    (hf : dep r.h = true → ∀ d, armed d = false) :
    Twin dep live [] armed r.timeout (Posix.timeoutPhase p r)
      (Ns2.dispatch (Ns2.handles dep node) n (scheduled dep r)) := by
  have hb := hT.book
  have hq : n.queue = scheduled dep r :: live.map (scheduled dep) := hT.queue_nil
  have hsort := hT.sorted
  rw [hq] at hsort
  have hfront : ∀ x ∈ live, r.timeout ≤ x.timeout := fun x hx =>
    (List.pairwise_cons.1 hsort).1 _ (List.mem_map_of_mem hx)
  have hmem : r ∈ (r :: live) ++ ([] : List Reg) := by simp
  have hnd : r.h ∉ live.map Reg.h := by
    have := hb.nodup
    rw [List.append_nil, List.map_cons, List.nodup_cons] at this
    exact this.1
  have hfut : n.clock ≤ r.timeout := hT.clock ▸ hb.future r List.mem_cons_self
  have hpend : (n.pendingList.map Ns2.EventDescr.reg) = live.filter fun x => armed x.h := by
    rw [hT.pending, List.filter_cons, if_neg]
    intro ha
    rw [hf (hb.latched _ ha).1] at ha
    cases ha
  have hother : ∀ h, h ≠ r.h → ((∃ x ∈ (r :: live) ++ ([] : List Reg), x.h = h) ↔ ∃ x ∈ live ++ [], x.h = h) := by
    intro h hne
    simp only [List.append_nil, List.exists_mem_cons_iff, or_iff_right_iff_imp]
    exact fun he => absurd he.symm hne
  have hnone : ¬∃ x ∈ live ++ ([] : List Reg), x.h = r.h := by
    rintro ⟨x, hx, he⟩
    rw [List.append_nil] at hx
    exact hnd (he ▸ List.mem_map_of_mem hx)
  have hslot : ∀ x ∈ live ++ ([] : List Reg), dep x.h = true → n.slot x.h = some x := fun x hx =>
    hT.slot x (List.mem_cons_of_mem _ hx)
  have hcalls : n.calls ++ [(r, r.timeout)] = (Posix.timeoutPhase p r).calls := by
    simp [hT.calls, Posix.St.calls, Posix.timeoutPhase, Posix.St.invoke]
  rw [ns2_dispatch hq hfut fun hd => ⟨(hT.timer _).2 ⟨hd, r, hmem, rfl⟩, hT.slot r hmem hd⟩]
  split
  · rename_i hd
    refine ⟨hb.wake hfront hf, rfl, rfl, hT.failed, hT.regs, ?_, ?_, List.filter_eq_self.2 fun _ _ => rfl,
      hsort.tail, ?_, hslot, hpend⟩
    · rw [← hcalls]
      simp [Ns2.St.calls, Ns2.St.call]
    · intro d hdep hreg
      by_cases he : d = r.h
      · subst he; simp [Ns2.St.call, Posix.timeoutPhase, Posix.St.invoke]
      · simp only [Ns2.St.call, Posix.timeoutPhase, Posix.St.invoke, Function.update_of_ne he]
        exact hT.status d hdep hreg
    · intro h
      by_cases he : h = r.h
      · subst he
        simp only [Ns2.St.call, Function.update_self, reduceCtorEq, false_iff]
        exact fun hx => hnone hx.2
      · simp only [Ns2.St.call, Function.update_of_ne he, hT.timer h, hother h he]
  · rename_i hd
    refine ⟨hb.wake hfront hf, rfl, rfl, hT.failed, hT.regs, ?_, ?_, List.filter_eq_self.2 fun _ _ => rfl,
      hsort.tail, ?_, hslot, hpend⟩
    · rw [← hcalls]
      simp [Ns2.St.calls, Ns2.St.call]
    · intro d hdep hreg
      have he : d ≠ r.h := fun he => hd (he ▸ hdep)
      simp only [Ns2.St.call, Posix.timeoutPhase, Posix.St.invoke, Function.update_of_ne he]
      exact hT.status d hdep hreg
    · intro h
      simp only [Ns2.St.call, hT.timer h]
      by_cases he : h = r.h
      · subst he
        simp [hd]
      · rw [hother h he]

/-! ## The armed entries are called -/

theorem mem_parts (q : Reg → Bool) (x : Reg) : x ∈ live.filter (!q ·) ++ live.filter q ↔ x ∈ live := by
  rw [List.mem_append, List.mem_filter, List.mem_filter, ← and_or_left]
  simp

theorem Book.collect (hb : Book dep live [] armed now p) :
    Book dep (live.filter fun r => !armed r.h) (live.filter fun r => armed r.h) (fun _ => false) now p := by
  have hmem : ∀ x, x ∈ (live.filter fun r => !armed r.h) ++ (live.filter fun r => armed r.h) ↔ x ∈ live :=
    mem_parts fun r => armed r.h
  refine ⟨?_, fun r hr => hb.future r (List.mem_filter.1 hr).1, by simp, fun r hr hd => ?_, fun r hr => ?_, fun r hr => ?_,
    hb.known, hb.ids⟩
  · have hperm := (List.perm_append_comm.trans (List.filter_append_perm (fun r : Reg => armed r.h) live)).map Reg.h
    rw [hperm.nodup_iff, ← List.append_nil live]
    exact hb.nodup
  · obtain ⟨hm, ha⟩ := List.mem_filter.1 hr
    have hs := hb.status r hm hd
    rwa [if_neg (by simpa using ha)] at hs
  · exact (hb.latched _ (List.mem_filter.1 hr).2).1
  · exact hb.pending r (by rw [List.append_nil]; exact (hmem r).1 hr)

/-- The next batch: on POSIX the armed entries leave `eventList`, on ns-2 `pendingList` becomes
`todo`. -/
theorem Twin.collect (hT : Twin dep live [] armed now p n) :
    Twin dep (live.filter fun r => !armed r.h) (live.filter fun r => armed r.h) (fun _ => false) now p
      { n with pendingList := [] } := by
  have hb := hT.book
  have hmem : ∀ x, x ∈ (live.filter fun r => !armed r.h) ++ (live.filter fun r => armed r.h) ↔ x ∈ live :=
    mem_parts fun r => armed r.h
  have hsched : ∀ r ∈ live, waits (live.filter fun r => armed r.h) (scheduled dep r) = !armed r.h := by
    intro r hr
    cases ha : armed r.h with
    | true =>
      obtain ⟨hd, -⟩ := hb.latched _ ha
      rw [scheduled, if_pos hd, Bool.not_true, ← Bool.not_eq_true, waits_timer]
      exact fun h => h r (List.mem_filter.2 ⟨hr, ha⟩) rfl
    | false =>
      refine waits_scheduled fun u hu he => ?_
      rw [← he, (List.mem_filter.1 hu).2] at ha
      cases ha
  refine ⟨hb.collect, hT.clock, hT.last, hT.failed, hT.regs, hT.calls, hT.status, ?_, hT.sorted, ?_, ?_, by simp⟩
  · rw [hT.queue_nil, List.filter_map]
    exact congrArg _ (List.filter_congr hsched)
  · intro h
    rw [hT.timer h, List.append_nil]
    simp only [hmem]
  · intro r hr hd
    exact hT.slot r (by rw [List.append_nil]; exact (hmem r).1 hr) hd

theorem Book.run {r : Reg} (hb : Book dep live (r :: uncalled) armed now p) (hs : p'.status = p.status)
    (hr : p'.regs = p.regs) (hc : p'.calls = p.calls ++ [(r, now)]) : Book dep live uncalled armed now p' := by
  have hsub : ∀ x ∈ live ++ uncalled, x ∈ live ++ r :: uncalled := by
    intro x hx
    rcases List.mem_append.1 hx with hx | hx
    · exact List.mem_append_left _ hx
    · exact List.mem_append_right _ (List.mem_cons_of_mem _ hx)
  have hmem : r ∈ live ++ r :: uncalled := List.mem_append_right _ List.mem_cons_self
  have hnd := hb.nodup
  rw [(List.perm_middle.map Reg.h).nodup_iff, List.map_cons, List.nodup_cons] at hnd
  refine ⟨hnd.2, hb.future, hb.latched, hs ▸ hb.status, fun x hx => hb.depend x (List.mem_cons_of_mem _ hx), fun x hx => ?_,
    hb.known_call hc hr hmem, hr ▸ hb.ids⟩
  refine hb.pending_call hc hr (hsub x hx) fun he => hnd.1 ?_
  exact he ▸ List.mem_map_of_mem hx

/-- The next entry of the batch is called: on ns-2 its timer is cancelled. -/
theorem Twin.run {e : Ns2.EventDescr} (hT : Twin dep live (e.reg :: uncalled) armed now p n) (q : Posix.St)
    (hs : q.status = p.status) (hr : q.regs = p.regs) (hl : q.lastEventTime = now)
    (hc : q.calls = p.calls ++ [(e.reg, now)]) (stack : List Ns2.Frame) :
    Twin dep live uncalled armed now q (Ns2.runPending n now e stack) ∧
      (Ns2.runPending n now e stack).stack = .cb e.reg :: stack := by
  have hb := hT.book
  have hmem : e.reg ∈ live ++ e.reg :: uncalled := List.mem_append_right _ List.mem_cons_self
  have hsub : ∀ x, x ∈ live ++ e.reg :: uncalled ↔ x = e.reg ∨ x ∈ live ++ uncalled := by
    intro x
    rw [List.perm_middle.mem_iff, List.mem_cons]
  have hp : n.timer e.reg.h = .pending := (hT.timer _).2 ⟨hb.depend _ List.mem_cons_self, e.reg, hmem, rfl⟩
  have hnd := hb.nodup
  rw [(List.perm_middle.map Reg.h).nodup_iff, List.map_cons, List.nodup_cons] at hnd
  simp only [Ns2.runPending, Ns2.St.cancel, Ns2.St.remove, if_pos hp]
  refine ⟨⟨hb.run hs hr hc, hT.clock, hl.symm, hT.failed, hT.regs.trans hr.symm, ?_, ?_, ?_, hT.sorted.filter _, ?_, ?_,
    hT.pending⟩, rfl⟩
  · rw [hc, ← hT.calls]
    simp [Ns2.St.calls, Ns2.St.call]
  · rw [hs, hr]
    exact hT.status
  · rw [← hT.queue]
    simp only [Ns2.St.call, List.filter_filter]
    refine List.filter_congr fun x _ => ?_
    simp only [waits, List.all_cons, ne_eq, Bool.and_comm]
  · intro h
    by_cases he : h = e.reg.h
    · subst he
      simp only [Ns2.St.call, Function.update_self, reduceCtorEq, false_iff]
      rintro ⟨-, x, hx, hxe⟩
      exact hnd.1 (hxe ▸ List.mem_map_of_mem hx)
    · simp only [Ns2.St.call, Function.update_of_ne he, hT.timer h, hsub]
      refine and_congr_right fun _ => ⟨?_, ?_⟩
      · rintro ⟨x, rfl | hx, hxe⟩
        · exact absurd hxe.symm he
        · exact ⟨x, hx, hxe⟩
      · rintro ⟨x, hx, hxe⟩
        exact ⟨x, .inr hx, hxe⟩
  · intro x hx hd
    exact hT.slot x ((hsub x).2 (.inr hx)) hd

/-! ## What the relation does not look at -/

theorem Twin.congr (hT : Twin dep live uncalled armed now p n) (q : Posix.St) (hs : q.status = p.status)
    (hr : q.regs = p.regs) (hl : q.lastEventTime = p.lastEventTime) (hc : q.calls = p.calls) (stack : List Ns2.Frame) :
    Twin dep live uncalled armed now q { n with stack := stack } := by
  have hb := hT.book
  exact ⟨⟨hb.nodup, hb.future, hb.latched, hs ▸ hb.status, hb.depend, hc ▸ hr ▸ hb.pending, hc ▸ hr ▸ hb.known,
    hr ▸ hb.ids⟩, hT.clock, hT.last.trans hl.symm, hT.failed, hT.regs.trans hr.symm, hT.calls.trans hc.symm,
    hs ▸ hr ▸ hT.status, hT.queue, hT.sorted, hT.timer, hT.slot, hT.pending⟩

/-- The timer of an expired entry that was not set again is idle. -/
theorem Twin.settle (hT : Twin dep live uncalled armed now p n) (h : Handle) :
    Twin dep live uncalled armed now p (n.settle h) := by
  unfold Ns2.St.settle
  split
  · rename_i hh
    refine ⟨hT.book, hT.clock, hT.last, hT.failed, hT.regs, hT.calls, hT.status, hT.queue, hT.sorted, fun k => ?_, hT.slot,
      hT.pending⟩
    rw [← hT.timer k]
    by_cases hk : k = h
    · subst hk
      simp [hh]
    · simp only [Function.update_of_ne hk]
  · exact hT

end Gea
