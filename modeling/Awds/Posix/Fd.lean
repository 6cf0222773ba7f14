import Awds.Posix.Step

/-!
# Dispatch of file descriptors

| here | there |
| --- | --- |
| `Cfg.descriptor`     | what `fill_fd_sets` (:71-93) and `activeFdHandlePred` (:134-144) each work out for an entry |
| `removeIfLoop`       | `remove_if` (:198) with its two iterators |

`fd_exact`: `select` is asked for the descriptors pending in each mode, and for what it answers the
descriptor branch calls the registrations whose descriptor is ready in its own mode, each once and
in the order of `eventList`, and leaves the others there. `UnixFdHandle` takes any `int`, and a
descriptor that an `fd_set` has no bit for is stored outside of it.
-/

namespace Posix

open Gea

variable {cfg : Cfg} {clock : Nat → AbsTime}

/-- The mode and the descriptor watched for a handle: its own, or those of the `UnixFdHandle` inside
a `UdpHandle`. -/
def Cfg.descriptor (cfg : Cfg) (h : Handle) : Option (PosixHandleMode × Int) :=
  match (cfg.shadowHandle h).handleType with
  | .unixFd => some ((cfg.shadowHandle h).unixMode, (cfg.shadowHandle h).unixFd)
  | .udp => some ((cfg.shadowHandle (cfg.subUdpHandle h)).unixMode, (cfg.shadowHandle (cfg.subUdpHandle h)).unixFd)
  | .blocker | .depend => none

/-- The registration's descriptor is in the set of its mode. -/
def ready (cfg : Cfg) (set : FdSets) (r : Reg) : Bool :=
  match cfg.descriptor r.h with
  | some (m, fd) => FD_ISSET fd (set m)
  | none => false

theorem FD_ISSET_iff {fd : Int} {set : FdSet} : FD_ISSET fd set = true ↔ ∃ b ∈ set, ((b : Nat) : Int) = fd := by
  simp [FD_ISSET]

theorem ready_iff {set : FdSets} {r : Reg} :
    ready cfg set r = true ↔ ∃ m fd, cfg.descriptor r.h = some (m, fd) ∧ FD_ISSET fd (set m) = true := by
  unfold ready
  rcases hd : cfg.descriptor r.h with _ | ⟨m, fd⟩
  · simp
  · simp only [Option.some.injEq, Prod.mk.injEq]
    constructor
    · intro hm
      exact ⟨m, fd, ⟨rfl, rfl⟩, hm⟩
    · rintro ⟨m', fd', ⟨rfl, rfl⟩, hm⟩
      exact hm

/-! ## `fill_fd_sets` -/

theorem FD_SET_isSome {fd : Int} {set : FdSet} : (FD_SET fd set).isSome ↔ InFdSet fd := by
  unfold FD_SET
  split
  · rename_i h
    simpa using h
  · rename_i h
    simpa using h

theorem isSet_FD_SET {fd x : Int} {set set' : FdSet} (h : FD_SET fd set = some set') :
    FD_ISSET x set' = true ↔ x = fd ∨ FD_ISSET x set = true := by
  unfold FD_SET at h
  split at h
  · rename_i hin
    cases h
    have hback : ((fd.toNat : Nat) : Int) = fd := Int.toNat_of_nonneg hin.1
    rw [FD_ISSET_iff, List.exists_mem_cons_iff, ← FD_ISSET_iff, hback]
    exact or_congr_left eq_comm
  · cases h

theorem fillFdSet_some {acc : FdSets × Int} {r : Reg} {m : PosixHandleMode} {fd : Int}
    (hd : cfg.descriptor r.h = some (m, fd)) :
    fillFdSet cfg acc r = (FD_SET fd (acc.1 m)).map fun set =>
      (Function.update acc.1 m set, if acc.2 > fd then acc.2 else fd) := by
  unfold Cfg.descriptor at hd
  split at hd
  · rename_i ht
    cases hd
    simp [fillFdSet, Cfg.isUnixFdHandle, Cfg.unixFdHandle, ht]
  · rename_i ht
    cases hd
    simp [fillFdSet, Cfg.isUnixFdHandle, Cfg.isUdpHandle, Cfg.unixFdHandle, ht]
  · cases hd
  · cases hd

theorem fillFdSet_none {acc : FdSets × Int} {r : Reg} (hd : cfg.descriptor r.h = none) :
    fillFdSet cfg acc r = some acc := by
  unfold Cfg.descriptor at hd
  split at hd
  · cases hd
  · cases hd
  · rename_i ht
    simp [fillFdSet, Cfg.isUnixFdHandle, Cfg.isUdpHandle, ht]
  · rename_i ht
    simp [fillFdSet, Cfg.isUnixFdHandle, Cfg.isUdpHandle, ht]

/-- What one entry adds. -/
theorem fillFdSet_spec {acc acc' : FdSets × Int} {r : Reg} (h : fillFdSet cfg acc r = some acc') :
    (∀ m fd, FD_ISSET fd (acc'.1 m) = true ↔ FD_ISSET fd (acc.1 m) = true ∨ cfg.descriptor r.h = some (m, fd)) ∧
      acc.2 ≤ acc'.2 ∧ ∀ m fd, cfg.descriptor r.h = some (m, fd) → fd ≤ acc'.2 := by
  rcases hd : cfg.descriptor r.h with _ | ⟨m', fd'⟩
  · rw [fillFdSet_none hd] at h
    cases h
    exact ⟨by simp, le_rfl, by simp⟩
  · rw [fillFdSet_some hd] at h
    obtain ⟨set, hset, rfl⟩ := Option.map_eq_some_iff.1 h
    refine ⟨fun m fd => ?_, ?_, ?_⟩
    · simp only [Option.some.injEq, Prod.mk.injEq]
      by_cases hm : m' = m
      · subst hm
        rw [Function.update_self, isSet_FD_SET hset]
        constructor
        · rintro (rfl | h)
          · exact .inr ⟨rfl, rfl⟩
          · exact .inl h
        · rintro (h | ⟨-, rfl⟩)
          · exact .inr h
          · exact .inl rfl
      · rw [Function.update_of_ne (Ne.symm hm)]
        simp [hm]
    · dsimp only
      split
      · exact le_rfl
      · rename_i hge
        exact not_lt.1 hge
    · rintro m fd ⟨⟩
      dsimp only
      split
      · rename_i hlt
        exact le_of_lt hlt
      · exact le_rfl

theorem foldlM_fillFdSet :
    ∀ (l : List Reg) {acc acc' : FdSets × Int}, l.foldlM (fillFdSet cfg) acc = some acc' →
      (∀ m fd, FD_ISSET fd (acc'.1 m) = true ↔
        FD_ISSET fd (acc.1 m) = true ∨ ∃ r ∈ l, cfg.descriptor r.h = some (m, fd)) ∧
      acc.2 ≤ acc'.2 ∧ ∀ r ∈ l, ∀ m fd, cfg.descriptor r.h = some (m, fd) → fd ≤ acc'.2
  | [], acc, acc', h => by
    cases h
    simp
  | r :: l, acc, acc', h => by
    rw [List.foldlM_cons] at h
    obtain ⟨mid, hmid, h⟩ := Option.bind_eq_some_iff.1 h
    obtain ⟨hset, hle, hfd⟩ := fillFdSet_spec hmid
    obtain ⟨hset', hle', hfd'⟩ := foldlM_fillFdSet l h
    refine ⟨fun m fd => ?_, hle.trans hle', fun x hx m fd hd => ?_⟩
    · rw [hset' m fd, hset m fd, List.exists_mem_cons_iff, or_assoc]
    · rcases List.mem_cons.1 hx with rfl | hx
      · exact (hfd m fd hd).trans hle'
      · exact hfd' x hx m fd hd

/-- The descriptors pending all have a bit. -/
def Watchable (cfg : Cfg) (l : List Reg) : Prop := ∀ r ∈ l, ∀ m fd, cfg.descriptor r.h = some (m, fd) → InFdSet fd

theorem foldlM_isSome : ∀ (l : List Reg) (acc : FdSets × Int),
    (l.foldlM (fillFdSet cfg) acc).isSome ↔ Watchable cfg l
  | [], acc => by simp [Watchable]
  | r :: l, acc => by
    have hcons : Watchable cfg (r :: l) ↔ (∀ m fd, cfg.descriptor r.h = some (m, fd) → InFdSet fd) ∧ Watchable cfg l :=
      List.forall_mem_cons
    rw [List.foldlM_cons, hcons]
    rcases hd : cfg.descriptor r.h with _ | ⟨m, fd⟩
    · rw [fillFdSet_none hd]
      simpa using foldlM_isSome l acc
    · rw [fillFdSet_some hd]
      have hbit : (∀ m' fd', some (m, fd) = some (m', fd') → InFdSet fd') ↔ InFdSet fd := by simp
      rw [hbit, ← @FD_SET_isSome fd (acc.1 m)]
      cases hset : FD_SET fd (acc.1 m) with
      | none => simp
      | some set => simpa using foldlM_isSome l _

/-- `fill_fd_sets` stores inside the sets exactly if each descriptor has a bit. -/
theorem fillFdSets_isSome {l : List Reg} : (fillFdSets cfg l).isSome ↔ Watchable cfg l := foldlM_isSome l _

section
variable {l : List Reg} {sets : FdSets} {maxFd : Int}

/-- The sets hold exactly the descriptors pending in each mode. -/
theorem isSet_fillFdSets (h : fillFdSets cfg l = some (sets, maxFd)) (m : PosixHandleMode) (fd : Int) :
    FD_ISSET fd (sets m) = true ↔ ∃ r ∈ l, cfg.descriptor r.h = some (m, fd) := by
  have hsets := (foldlM_fillFdSet l h).1 m fd
  simpa [FD_ISSET] using hsets

theorem le_maxFd (h : fillFdSets cfg l = some (sets, maxFd)) {m : PosixHandleMode} {fd : Int}
    (hfd : FD_ISSET fd (sets m) = true) : fd ≤ maxFd := by
  obtain ⟨r, hr, hd⟩ := (isSet_fillFdSets h m fd).1 hfd
  exact (foldlM_fillFdSet l h).2.2 r hr m fd hd

/-- Without descriptors `select` has nothing to wait for. -/
theorem fillFdSets_unwatched (h : ∀ r ∈ l, cfg.descriptor r.h = none) : fillFdSets cfg l = some (fun _ => [], 0) := by
  unfold fillFdSets
  induction l with
  | nil => rfl
  | cons r l ih =>
    rw [List.foldlM_cons, fillFdSet_none (h r List.mem_cons_self)]
    exact ih fun x hx => h x (List.mem_cons_of_mem r hx)

end

/-- The predicate of the descriptor branch works out the same descriptor. -/
theorem activeFd_eq (set : FdSets) (r : Reg) : activeFd cfg set r = ready cfg set r := by
  unfold activeFd ready Cfg.descriptor Cfg.unixFdHandle Cfg.isUnixFdHandle Cfg.isUdpHandle
  cases ht : (cfg.shadowHandle r.h).handleType with
  | unixFd => rfl
  | blocker => rfl
  | depend => rfl
  | udp => rfl

/-! ## `remove_if` with its iterators -/

/-- The `while` of `remove_if` (:206-213). An iterator is given by its distance to `end()`, which an
`erase` in front of it does not change; `fuel` bounds the number of rounds. -/
def removeIfLoop (clock : Nat → AbsTime) (pred : Reg → Bool) :
    Nat → List Reg → Nat → Nat → St → List Reg × List EventCall × St
  | 0, eventList, _, _, s => (eventList, [], s)
  | fuel + 1, eventList, i, iplus1, s =>
    match eventList[eventList.length - i]? with
    | none => (eventList, [], s)
    | some r =>
      if pred r then
        let (s', ec) := s.collect clock r
        let (kept, elist, s'') :=
          removeIfLoop clock pred fuel (eventList.eraseIdx (eventList.length - i)) iplus1 (iplus1 - 1) s'
        (kept, ec :: elist, s'')
      else removeIfLoop clock pred fuel eventList iplus1 (iplus1 - 1) s

/-- Both iterators go on in step, and what lies before them is kept. -/
theorem removeIfLoop_eq (pred : Reg → Bool) :
    ∀ (todo done : List Reg) (fuel : Nat) (s : St), todo.length ≤ fuel →
      removeIfLoop clock pred fuel (done ++ todo) todo.length (todo.length - 1) s =
        (done ++ (removeIf clock pred todo s).1, (removeIf clock pred todo s).2)
  | [], done, 0, s, _ => by simp [removeIfLoop, removeIf]
  | [], done, fuel + 1, s, _ => by simp [removeIfLoop, removeIf]
  | r :: todo, done, 0, s, h => by simp at h
  | r :: todo, done, fuel + 1, s, h => by
    have hlen : todo.length ≤ fuel := by simpa using h
    have hat : (done ++ r :: todo).length - (r :: todo).length = done.length := by simp
    have hget : (done ++ r :: todo)[done.length]? = some r := by simp
    have herase : (done ++ r :: todo).eraseIdx done.length = done ++ todo := by
      rw [List.eraseIdx_append_of_length_le (le_refl _)]; simp
    have hnext : (r :: todo).length - 1 = todo.length := by simp
    unfold removeIfLoop
    rw [hat, hget]
    dsimp only
    rw [hnext]
    by_cases hp : pred r = true
    · rw [if_pos hp, herase, removeIfLoop_eq pred todo done fuel _ hlen]
      simp only [removeIf, if_pos hp]
    · rw [if_neg hp]
      have hdone := removeIfLoop_eq pred todo (done ++ [r]) fuel s hlen
      simp only [List.append_assoc, List.singleton_append] at hdone
      rw [hdone]
      simp only [removeIf, if_neg hp]

/-- `remove_if`, started with `i = begin()` and `iplus1` behind it, visits the entries in order. -/
theorem removeIf_refines (pred : Reg → Bool) (l : List Reg) (s : St) :
    removeIfLoop clock pred l.length l l.length (l.length - 1) s = removeIf clock pred l s :=
  removeIfLoop_eq pred l [] l.length s (le_refl _)

/-! ## The descriptor branch -/

theorem PosixHandleMode.mem_all (m : PosixHandleMode) : m ∈ [PosixHandleMode.read, .write, .exception] := by
  cases m with
  | read | write | exception => decide

theorem SelectCall.Ready.subset {call : SelectCall} {set : FdSets} (h : call.Ready set) {m : PosixHandleMode} {fd : Int}
    (hfd : FD_ISSET fd (set m) = true) : FD_ISSET fd (call.sets m) = true := by
  rw [FD_ISSET_iff] at hfd ⊢
  exact hfd.imp fun b hb => ⟨h.1 m m.mem_all b hb.1, hb.2⟩

theorem SelectCall.Ready.nonempty {call : SelectCall} {set : FdSets} (h : call.Ready set) :
    ∃ m fd, FD_ISSET fd (set m) = true := by
  obtain ⟨m, -, hm⟩ := h.2
  exact ⟨m, _, FD_ISSET_iff.2 ⟨_, List.head_mem hm, rfl⟩⟩

/-- A callback of the descriptor branch runs, and the step does not end the batch. -/
def InBatch (s : St) (i : Input) : Prop :=
  match s.ctl, i with
  | .io (_ :: _), _ => True
  | .io [], .ret => False
  | .io [], _ => True
  | _, _ => False

/-- The batch collected in `s₀` for the answer `set`, in the state `s` in which the callback of the
last of `called` runs; `made` are the registrations made since. -/
structure Batch (cfg : Cfg) (s₀ : St) (set : FdSets) (s : St) (called : List Invocation) (made : List Reg)
    (rest : List EventCall) : Prop where
  ctl : s.ctl = .io rest
  log : s.log = s₀.log ++ called
  phase : ∀ inv ∈ called, inv.phase = .io
  /-- The ready registrations are those called and those still to be called. -/
  dispatched : called.map Invocation.reg ++ rest.map EventCall.reg = s₀.eventList.filter (ready cfg set)
  regs : s.regs = s₀.regs ++ made
  /-- The others stay, and the registrations made since are added to them. -/
  eventList : s.eventList.Perm (s₀.eventList.filter (!ready cfg set ·) ++ made)
  order : (s₀.eventList.filter (!ready cfg set ·)).Sublist s.eventList

variable {s s' s₀ : St} {set : FdSets} {called : List Invocation} {made : List Reg} {rest : List EventCall}

/-- The state in which `select` waits for `call`. -/
def St.selecting (s : St) (call : SelectCall) : St := { s with reads := s.reads + 1, ctl := .select call }

theorem enter_selecting {r : Reg} {rs : List Reg} {call : SelectCall} (hc : s.ctl = .loop) (he : s.eventList = r :: rs)
    (hcall : selectCall cfg r.timeout (clock s.reads) s.eventList = some call) :
    step cfg clock s .enter = some (s.selecting call) := by
  rw [he] at hcall
  simp only [step, hc, loopHead, he, hcall]
  simp only [St.selecting, he]

theorem enter_overflow {r : Reg} {rs : List Reg} (hc : s.ctl = .loop) (he : s.eventList = r :: rs)
    (hfill : fillFdSets cfg s.eventList = none) :
    step cfg clock s .enter = some { s with reads := s.reads + 1, ctl := .aborted } := by
  have hcall : selectCall cfg r.timeout (clock s.reads) s.eventList = none := by rw [selectCall, hfill]; rfl
  rw [he] at hcall
  simp only [step, hc, loopHead, he, hcall]

/-- `select` answers with `set`, and the batch is not empty. -/
theorem batch_first {call : SelectCall}
    (hset : ∀ m fd, FD_ISSET fd (call.sets m) = true ↔ ∃ r ∈ s.eventList, cfg.descriptor r.h = some (m, fd))
    (ha : call.Ready set) :
    ∃ inv rest, Batch cfg s set (ioPhase cfg clock set s) [inv] [] rest := by
  have hpred : activeFd cfg set = ready cfg set := funext (activeFd_eq set)
  rcases ioPhase_cases cfg clock set s with ⟨hnil, -⟩ | ⟨ec, rest, hcol, he⟩
  · obtain ⟨m, fd, hfd⟩ := ha.nonempty
    obtain ⟨r, hr, hd⟩ := (hset m fd).1 (ha.subset hfd)
    have hready : ready cfg set r = true := ready_iff.2 ⟨m, fd, hd, hfd⟩
    have hmem : r ∈ s.eventList.filter (activeFd cfg set) := List.mem_filter.2 ⟨hr, by rw [hpred]; exact hready⟩
    rw [hnil] at hmem; cases hmem
  · have hregs := hcol.regs
    rw [hpred] at hregs he
    rw [he]
    refine ⟨⟨ec.reg, ec.t, .ready, .io⟩, rest, rfl, rfl, by simp, hregs, by simp [St.batch], ?_, List.Sublist.refl _⟩
    rw [List.append_nil]; rfl

theorem batch_waitFor {h : Handle} {t : AbsTime} {e : Event} {d : Data} (hb : Batch cfg s₀ set s called made rest) :
    Batch cfg s₀ set (s.waitFor h t e d) called (made ++ [⟨s.made, h, t, e, d⟩]) rest := by
  refine ⟨hb.ctl, hb.log, hb.phase, hb.dispatched, ?_, ?_, hb.order.trans (Multimap.sublist_insert _ _)⟩
  · simp only [St.waitFor, hb.regs, List.append_assoc]
  · have hins := Multimap.insert_perm Reg.timeout ⟨s.made, h, t, e, d⟩ s.eventList
    rw [← List.append_assoc]
    exact hins.trans ((hb.eventList.cons _).trans (List.perm_append_singleton _ _).symm)

/-- One step of user code in the batch, or the call of the next callback. -/
theorem batch_step {i : Input} (hb : Batch cfg s₀ set s called made rest) (ho : InBatch s i)
    (hs : Step cfg clock s i s') : ∃ called made rest, Batch cfg s₀ set s' called made rest := by
  have hctl := hb.ctl
  cases hs with
  | waitFor h t e d => exact ⟨_, _, _, batch_waitFor hb⟩
  | complied d =>
    exact ⟨called, made, rest, hb.ctl, hb.log, hb.phase, hb.dispatched, hb.regs, hb.eventList, hb.order⟩
  | retIo hc =>
    unfold InBatch at ho
    rw [hc] at ho
    exact ho.elim
  | @nextIo ec rest' hc =>
    rw [hc] at hctl
    cases hctl
    refine ⟨called ++ [⟨ec.reg, ec.t, s.status ec.reg.h, .io⟩], made, rest', rfl, ?_, ?_, ?_, hb.regs, hb.eventList,
      hb.order⟩
    · simp only [St.invoke, hb.log, List.append_assoc]
    · intro inv hinv
      rcases List.mem_append.1 hinv with hinv | hinv
      · exact hb.phase inv hinv
      · rw [List.mem_singleton.1 hinv]
    · rw [← hb.dispatched]; simp
  | returned hc | select hc | overflow hc | timeout hc | ready _ hc | failed hc | retMain hc | retTimeout hc | retDep hc
  | nextDep hc =>
    rw [hc] at hctl; cases hctl

/-- `select` is asked for the descriptors pending in each mode, and `max_fd` is not below one of them. When it answers
with a non-empty part of them, then whatever the callbacks do: they are those of the ready registrations, each called
once and in the order of `eventList`; the other registrations stay in their order; and behind the last callback follows
the dependency phase. -/
def FdExact (cfg : Cfg) (clock : Nat → AbsTime) (s : St) : Prop :=
  ∃ call s₀, step cfg clock s .enter = some s₀ ∧ s₀.ctl = .select call ∧
    s₀.eventList = s.eventList ∧ s₀.log = s.log ∧ s₀.regs = s.regs ∧
    (∀ m fd, FD_ISSET fd (call.sets m) = true ↔ ∃ r ∈ s.eventList, cfg.descriptor r.h = some (m, fd)) ∧
    (∀ m fd, FD_ISSET fd (call.sets m) = true → fd ≤ call.maxFd) ∧
    ∀ set, call.Ready set → ∃ s₁, step cfg clock s₀ (.wake (.ready set)) = some s₁ ∧
      ∀ s₂, Lts.Reach (step cfg clock) InBatch s₁ s₂ → ∃ called made rest,
        Batch cfg s₀ set s₂ called made rest ∧
          (rest = [] → step cfg clock s₂ .ret = some (depPhase cfg clock s₂))

theorem fdExact_of_filled {sets : FdSets} {maxFd : Int} (hc : s.ctl = .loop) (hne : s.eventList ≠ [])
    (hfill : fillFdSets cfg s.eventList = some (sets, maxFd)) : FdExact cfg clock s := by
  obtain ⟨r, rs, he⟩ := List.exists_cons_of_ne_nil hne
  have hcall : selectCall cfg r.timeout (clock s.reads) s.eventList =
      some ⟨sets, maxFd, sleepTimeval r.timeout (clock s.reads)⟩ := by rw [selectCall, hfill]; rfl
  generalize hsel : (⟨sets, maxFd, sleepTimeval r.timeout (clock s.reads)⟩ : SelectCall) = call at hcall
  have hsets : ∀ m fd, FD_ISSET fd (call.sets m) = true ↔ ∃ r ∈ s.eventList, cfg.descriptor r.h = some (m, fd) := by
    rw [← hsel]
    exact isSet_fillFdSets hfill
  have hmax : ∀ m fd, FD_ISSET fd (call.sets m) = true → fd ≤ call.maxFd := by
    rw [← hsel]
    exact fun m fd hfd => le_maxFd hfill hfd
  refine ⟨call, s.selecting call, enter_selecting hc he hcall, rfl, rfl, rfl, rfl, hsets, hmax, fun set ha => ?_⟩
  refine ⟨ioPhase cfg clock set (s.selecting call), rfl, fun s₂ hr => ?_⟩
  have hfirst : ∃ inv rest, Batch cfg (s.selecting call) set (ioPhase cfg clock set (s.selecting call)) [inv] [] rest :=
    batch_first (s := s.selecting call) hsets ha
  have hbatch : ∃ called made rest, Batch cfg (s.selecting call) set s₂ called made rest := by
    refine hr.invariant (I := fun t => ∃ called made rest, Batch cfg _ set t called made rest) ?_ ?_
    · obtain ⟨inv, rest, hb⟩ := hfirst
      exact ⟨_, _, _, hb⟩
    · rintro t i u ⟨called, made, rest, hb⟩ ho hs
      exact batch_step hb ho (step_cases hs)
  obtain ⟨called, made, rest, hb⟩ := hbatch
  refine ⟨called, made, rest, hb, ?_⟩
  rintro rfl
  simp [step, ret, hb.ctl]

theorem FdExact.watchable (h : FdExact cfg clock s) (hc : s.ctl = .loop) (hne : s.eventList ≠ []) :
    Watchable cfg s.eventList := by
  rw [← fillFdSets_isSome]
  obtain ⟨call, s₀, hs, hctl, -⟩ := h
  by_contra hnone
  obtain ⟨r, rs, he⟩ := List.exists_cons_of_ne_nil hne
  rw [enter_overflow hc he (Option.not_isSome_iff_eq_none.1 hnone)] at hs
  cases hs
  cases hctl

/-- **Dispatch of descriptors is exact, exactly if each descriptor pending has a bit in an `fd_set`.** -/
theorem fd_exact (cfg : Cfg) (clock : Nat → AbsTime) (s : St) (hc : s.ctl = .loop) (hne : s.eventList ≠ []) :
    FdExact cfg clock s ↔ Watchable cfg s.eventList := by
  constructor
  · intro h
    exact h.watchable hc hne
  · intro h
    obtain ⟨⟨sets, maxFd⟩, hfill⟩ := Option.isSome_iff_exists.1 (fillFdSets_isSome.2 h)
    exact fdExact_of_filled hc hne hfill

/-- Two registrations on standard input and a timer. -/
def readersRun : List Input := [.waitFor 3 10 0 0, .waitFor 0 15 0 0, .waitFor 3 20 0 0, .ret]

/-- `select` is asked for descriptor 0. When it is ready, the callbacks are those of registrations 0 and 2. -/
theorem fd_exact_readers :
    let s := (Lts.execOk (step sampleCfg fun _ => 5) Lts.Any (St.init 0) readersRun).get (by decide)
    ∃ call s₀ s₁, step sampleCfg (fun _ => 5) s .enter = some s₀ ∧ s₀.ctl = .select call ∧
      (∀ m fd, FD_ISSET fd (call.sets m) = true ↔ ∃ r ∈ s.eventList, sampleCfg.descriptor r.h = some (m, fd)) ∧
      step sampleCfg (fun _ => 5) s₀ (.wake (.ready fun m => if m = .read then [0] else [])) = some s₁ ∧
      ∃ called made rest, Batch sampleCfg s₀ (fun m => if m = .read then [0] else []) s₁ called made rest ∧
        (called.map Invocation.reg ++ rest.map EventCall.reg).map Reg.id = [0, 2] := by
  intro s
  have hwatch : Watchable sampleCfg s.eventList := by
    rw [← fillFdSets_isSome]
    decide
  obtain ⟨call, s₀, hs, hc, he, -, -, hsets, -, hready⟩ := (fd_exact sampleCfg (fun _ => 5) s (by rfl) (by decide)).2 hwatch
  have hask : FD_ISSET 0 (call.sets .read) = true :=
    (hsets .read 0).2 ⟨⟨0, 3, 10, 0, 0⟩, by decide, rfl⟩
  obtain ⟨b, hb, hb0⟩ := FD_ISSET_iff.1 hask
  have hzero : (0 : Fin FD_SETSIZE) ∈ call.sets .read := by
    have hb0 : b = 0 := Fin.ext (by simpa using hb0)
    exact hb0 ▸ hb
  obtain ⟨s₁, hs₁, hbatch⟩ := hready (fun m => if m = .read then [0] else []) ⟨by simp [hzero], .read, by simp, by simp⟩
  obtain ⟨called, made, rest, hb, -⟩ := hbatch s₁ .refl
  refine ⟨call, s₀, s₁, hs, hc, hsets, hs₁, called, made, rest, hb, ?_⟩
  rw [hb.dispatched, he]
  decide

/-- A `UnixFdHandle` for descriptor 1024. -/
def manyFdsCfg : Cfg where
  shadowHandle _ := ⟨.unixFd, 1024, .read⟩
  subUdpHandle h := h

theorem fd_set_overflow : ¬∀ cfg clock s, s.ctl = .loop → s.eventList ≠ [] → FdExact cfg clock s := by
  intro hall
  have hexact := hall manyFdsCfg (fun _ => 0) { (St.init 0).waitFor 0 10 0 0 with ctl := .loop } rfl (by decide)
  have hfill := fillFdSets_isSome.2 (hexact.watchable rfl (by decide))
  revert hfill
  decide

end Posix
