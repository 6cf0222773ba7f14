import Mathlib

/-!
# Breadth first, up to a radius

A search with a queue: `scan` looks at the neighbours of the node that left it. `found` says how far each
node is, in the order in which the nodes were found. Nodes that are not to `expand` are found, not passed
through. With a fuel for each node the search comes to an end, and has found what is `Within` the radius,
each node at its `Distance`.
-/

namespace Bfs

variable {α : Type*}

/-! ## Distances -/

section
variable (next : α → List α) (expand : α → Prop) (start : α)

/-- In at most `k` steps from `start`; a step leaves `start` or a node to `expand`. -/
inductive Within : ℕ → α → Prop where
  | start (k : ℕ) : Within k start
  | step {k : ℕ} {n m : α} (hn : Within k n) (he : n = start ∨ expand n) (hm : m ∈ next n) : Within (k + 1) m

def Distance (m : α) (d : ℕ) : Prop := Within next expand start d m ∧ ∀ k < d, ¬Within next expand start k m

end

section
variable {next : α → List α} {expand : α → Prop} {start m n : α} {d k : ℕ}

theorem Within.succ (h : Within next expand start k m) : Within next expand start (k + 1) m := by
  induction h with
  | start k => exact .start (k + 1)
  | step _ he hm ih => exact .step ih he hm

theorem Within.mono (h : Within next expand start k m) (hk : k ≤ d) : Within next expand start d m := by
  induction hk with
  | refl => exact h
  | step _ ih => exact ih.succ

theorem Within.cases (h : Within next expand start (k + 1) m) :
    m = start ∨ ∃ n, Within next expand start k n ∧ (n = start ∨ expand n) ∧ m ∈ next n := by
  cases h with
  | start => exact .inl rfl
  | step hn he hm => exact .inr ⟨_, hn, he, hm⟩

theorem distance_start : Distance next expand start start 0 := ⟨.start 0, fun _ hk => absurd hk (Nat.not_lt_zero _)⟩

theorem Within.distance (h : Within next expand start k m) : ∃ d ≤ k, Distance next expand start m d := by
  classical
  have hex : ∃ d, Within next expand start d m := ⟨k, h⟩
  exact ⟨Nat.find hex, Nat.find_min' hex h, Nat.find_spec hex, fun j hj => Nat.find_min hex hj⟩

theorem Distance.le (h : Distance next expand start m d) (hk : Within next expand start k m) : d ≤ k :=
  not_lt.1 fun hlt => h.2 k hlt hk

theorem Distance.unique (h : Distance next expand start m d) (h' : Distance next expand start m k) : d = k :=
  Nat.le_antisymm (h.le h'.1) (h'.le h.1)

/-- The node before the last on a shortest way. -/
theorem Distance.pred (h : Distance next expand start m (d + 1)) :
    ∃ n, Distance next expand start n d ∧ (n = start ∨ expand n) ∧ m ∈ next n := by
  rcases h.1.cases with rfl | ⟨n, hn, he, hm⟩
  · exact absurd (Within.start 0) (h.2 0 (Nat.succ_pos d))
  · refine ⟨n, ⟨hn, fun k hk hw => ?_⟩, he, hm⟩
    exact h.2 (k + 1) (Nat.succ_lt_succ hk) (hw.step he hm)

/-- A shortest way does not come to a node twice: there are as many nodes as steps, and one more. -/
theorem Distance.lt_length {univ : List α} (hstart : start ∈ univ) (huniv : ∀ n ∈ univ, ∀ m ∈ next n, m ∈ univ)
    (h : Distance next expand start m d) : d < univ.length := by
  have hway : ∀ d m, Distance next expand start m d → m ∈ univ ∧
      ∃ l : List α, l.length = d + 1 ∧ l.Nodup ∧ ∀ x ∈ l, x ∈ univ ∧ ∃ k ≤ d, Distance next expand start x k := by
    intro d
    induction d with
    | zero =>
      intro m h
      have hm : m = start := by cases h.1; rfl
      subst hm
      refine ⟨hstart, [m], rfl, List.nodup_singleton m, fun x hx => ?_⟩
      rw [List.mem_singleton.1 hx]
      exact ⟨hstart, 0, le_rfl, distance_start⟩
    | succ d ih =>
      intro m h
      obtain ⟨n, hn, -, hm⟩ := h.pred
      obtain ⟨hnu, l, hlen, hnodup, hall⟩ := ih n hn
      have hmu : m ∈ univ := huniv n hnu m hm
      refine ⟨hmu, m :: l, by rw [List.length_cons, hlen], List.nodup_cons.2 ⟨fun hml => ?_, hnodup⟩, fun x hx => ?_⟩
      · obtain ⟨-, k, hk, hdist⟩ := hall m hml
        have heq : d + 1 = k := h.unique hdist
        omega
      · rcases List.mem_cons.1 hx with rfl | hx
        · exact ⟨hmu, d + 1, le_rfl, h⟩
        · obtain ⟨hxu, k, hk, hdist⟩ := hall x hx
          exact ⟨hxu, k, hk.trans (Nat.le_succ d), hdist⟩
  obtain ⟨-, l, hlen, hnodup, hall⟩ := hway d m h
  have hsub : l ⊆ univ := fun x hx => (hall x hx).1
  have hle : l.length ≤ univ.length := (hnodup.subperm hsub).length_le
  omega

/-- Where all nodes that are come to are expanded, the distance does not matter for being reached. -/
theorem exists_within (hall : ∀ n, ∀ m ∈ next n, expand m) :
    (∃ k, Within next expand start k m) ↔ Relation.ReflTransGen (fun a b => b ∈ next a) start m := by
  constructor
  · rintro ⟨k, h⟩
    induction h with
    | start k => exact .refl
    | step _ _ hm ih => exact ih.tail hm
  · intro h
    induction h with
    | refl => exact ⟨0, .start 0⟩
    | @tail b c hb hm ih =>
      obtain ⟨k, hk⟩ := ih
      refine ⟨k + 1, hk.step ?_ hm⟩
      cases hb with
      | refl => exact .inl rfl
      | tail _ hlast => exact .inr (hall _ _ hlast)

end

/-! ## The search -/

section
variable [DecidableEq α] (expand : α → Prop) [DecidablePred expand]

structure State (α : Type*) where
  found : List (α × ℕ)
  queue : List α

def State.keys (s : State α) : List α := s.found.map Prod.fst

/-- How far `n` is. -/
def State.dist (s : State α) (n : α) : ℕ := (s.found.lookup n).getD 0

/-- A neighbour of a node at distance `d`. -/
def visit (d : ℕ) (s : State α) (m : α) : State α :=
  if m ∈ s.keys then s
  else ⟨s.found ++ [(m, d + 1)], if expand m then s.queue ++ [m] else s.queue⟩

/-- The loop over the queue. -/
def loop (scan : ℕ → α → State α → State α) (radius : ℕ) : ℕ → State α → List (α × ℕ)
  | 0, s => s.found
  | fuel + 1, s => match s.queue with
    | [] => s.found
    | n :: queue => if radius ≤ s.dist n then s.found
      else loop scan radius fuel (scan (s.dist n) n { s with queue := queue })

def search (scan : ℕ → α → State α → State α) (radius fuel : ℕ) (start : α) : List (α × ℕ) :=
  loop scan radius fuel ⟨[(start, 0)], [start]⟩

/-- `scan` visits the neighbours. -/
def Scans (next : α → List α) (scan : ℕ → α → State α → State α) : Prop :=
  ∀ d n s, scan d n s = (next n).foldl (visit expand d) s

variable {expand} {next : α → List α} {start : α} {radius : ℕ}

/-- What a scan adds: the neighbours that were not found yet, each once. -/
theorem visit_spec (expand : α → Prop) [DecidablePred expand] (d : ℕ) (ms : List α) (s : State α) : ∃ new : List (α × ℕ),
    (ms.foldl (visit expand d) s).found = s.found ++ new ∧
      (ms.foldl (visit expand d) s).queue = s.queue ++ (new.filter (expand ·.1)).map Prod.fst ∧
      (∀ p ∈ new, p.2 = d + 1 ∧ p.1 ∈ ms ∧ p.1 ∉ s.keys) ∧ (new.map Prod.fst).Nodup ∧
      ∀ m ∈ ms, m ∈ s.keys ∨ m ∈ new.map Prod.fst := by
  induction ms generalizing s with
  | nil => exact ⟨[], by simp, by simp, by simp, by simp, by simp⟩
  | cons m ms ih =>
    by_cases hm : m ∈ s.keys
    · obtain ⟨new, hfound, hqueue, hnew, hnodup, hall⟩ := ih s
      rw [List.foldl_cons, visit, if_pos hm]
      refine ⟨new, hfound, hqueue, fun p hp => ?_, hnodup, fun x hx => ?_⟩
      · obtain ⟨h1, h2, h3⟩ := hnew p hp
        exact ⟨h1, List.mem_cons_of_mem m h2, h3⟩
      · rcases List.mem_cons.1 hx with rfl | hx
        · exact .inl hm
        · exact hall x hx
    · obtain ⟨new, hfound, hqueue, hnew, hnodup, hall⟩ :=
        ih ⟨s.found ++ [(m, d + 1)], if expand m then s.queue ++ [m] else s.queue⟩
      have hkeys : ∀ x, x ∈ State.keys ⟨s.found ++ [(m, d + 1)], if expand m then s.queue ++ [m] else s.queue⟩ ↔
          x ∈ s.keys ∨ x = m := fun x => by simp [State.keys]
      rw [List.foldl_cons, visit, if_neg hm]
      refine ⟨(m, d + 1) :: new, by rw [hfound]; simp, ?_, fun p hp => ?_, ?_, fun x hx => ?_⟩
      · rw [hqueue]
        by_cases he : expand m <;> simp [he]
      · rcases List.mem_cons.1 hp with rfl | hp
        · exact ⟨rfl, List.mem_cons_self, hm⟩
        · obtain ⟨h1, h2, h3⟩ := hnew p hp
          exact ⟨h1, List.mem_cons_of_mem m h2, fun hk => h3 ((hkeys _).2 (.inl hk))⟩
      · rw [List.map_cons, List.nodup_cons]
        refine ⟨fun hmem => ?_, hnodup⟩
        obtain ⟨p, hp, hpm⟩ := List.mem_map.1 hmem
        exact (hnew p hp).2.2 ((hkeys _).2 (.inr hpm))
      · rw [List.map_cons, List.mem_cons]
        rcases List.mem_cons.1 hx with rfl | hx
        · exact .inr (.inl rfl)
        · rcases hall x hx with hk | hn
          · exact ((hkeys x).1 hk).imp_right .inl
          · exact .inr (.inr hn)

/-! ## What the loop keeps -/

/-- `q` is the queue, with the distances: they grow, by one at most. What has left it has all its
neighbours found. -/
structure Inv (next : α → List α) (expand : α → Prop) (start : α) (radius : ℕ) (s : State α) (q : List (α × ℕ)) :
    Prop where
  queue : s.queue = q.map Prod.fst
  mem : ∀ p ∈ q, p ∈ s.found ∧ (p.1 = start ∨ expand p.1)
  sorted : q.Pairwise (·.2 ≤ ·.2)
  near : ∀ p ∈ q, ∀ p' ∈ q, p'.2 ≤ p.2 + 1
  nodup : s.keys.Nodup
  exact : ∀ p ∈ s.found, Distance next expand start p.1 p.2 ∧ p.2 ≤ radius
  closed : ∀ p ∈ s.found, p.1 = start ∨ expand p.1 → p ∉ q → ∀ m ∈ next p.1, m ∈ s.keys

variable {s : State α} {q : List (α × ℕ)} {p : α × ℕ}

omit [DecidableEq α] [DecidablePred expand] in
theorem inv_init (hr : 0 ≤ radius) : Inv next expand start radius ⟨[(start, 0)], [start]⟩ [(start, 0)] where
  queue := rfl
  mem p hp := ⟨hp, .inl (congrArg Prod.fst (List.mem_singleton.1 hp))⟩
  sorted := List.pairwise_singleton _ _
  near p hp p' hp' := by
    rw [List.mem_singleton.1 hp, List.mem_singleton.1 hp']
    exact Nat.zero_le _
  nodup := List.nodup_singleton _
  exact p hp := by
    rw [List.mem_singleton.1 hp]
    exact ⟨distance_start, hr⟩
  closed p hp _ hq := absurd hp hq

omit [DecidableEq α] [DecidablePred expand] in
theorem State.mem_keys {m : α} : m ∈ s.keys ↔ ∃ d, (m, d) ∈ s.found := by
  simp [State.keys]

omit [DecidablePred expand] in
theorem Inv.dist (h : Inv next expand start radius s q) (hp : p ∈ s.found) : s.dist p.1 = p.2 := by
  have hlookup : s.found.lookup p.1 = some p.2 := by
    obtain ⟨found, queue⟩ := s
    have hnodup : (found.map Prod.fst).Nodup := h.nodup
    clear h
    induction found with
    | nil => cases hp
    | cons x found ih =>
      rw [List.map_cons, List.nodup_cons] at hnodup
      rcases List.mem_cons.1 hp with rfl | hp
      · exact List.lookup_cons_self
      · have hne : (p.1 == x.1) = false := by
          rw [beq_eq_false_iff_ne]
          rintro heq
          exact hnodup.1 (heq ▸ List.mem_map_of_mem hp)
        rw [List.lookup_cons, hne]
        exact ih hp hnodup.2
  rw [State.dist, hlookup]
  rfl

omit [DecidableEq α] [DecidablePred expand] in
/-- All that is nearer than the queue, or as near, is found. -/
theorem Inv.found (h : Inv next expand start radius s q) {k : ℕ} (hk : ∀ p ∈ q, k ≤ p.2) (hstart : start ∈ s.keys) :
    ∀ {m : α}, Within next expand start k m → m ∈ s.keys := by
  intro m hm
  induction hm with
  | start => exact hstart
  | @step j n m hn he hm ih =>
    have hj : ∀ p ∈ q, j ≤ p.2 := fun p hp => (Nat.le_succ j).trans (hk p hp)
    obtain ⟨d, hd⟩ := State.mem_keys.1 (ih hj)
    refine h.closed (n, d) hd he (fun hq => ?_) m hm
    have hle : d ≤ j := (h.exact _ hd).1.le hn
    have hgt : j + 1 ≤ d := hk _ hq
    omega

/-- The step lemma: a node leaves the queue. -/
theorem Inv.scan (h : Inv next expand start radius s (p :: q)) (hstart : start ∈ s.keys) (hr : p.2 < radius) :
    ∃ new : List (α × ℕ),
      ((next p.1).foldl (visit expand p.2) { s with queue := q.map Prod.fst }).found = s.found ++ new ∧
      (∀ x ∈ new, x.1 ∈ next p.1) ∧
      Inv next expand start radius ((next p.1).foldl (visit expand p.2) { s with queue := q.map Prod.fst })
        (q ++ new.filter (expand ·.1)) := by
  obtain ⟨new, hfound, hqueue, hnew, hnodup, hall⟩ :=
    visit_spec expand p.2 (next p.1) { s with queue := q.map Prod.fst }
  obtain ⟨hp, hpe⟩ := h.mem p List.mem_cons_self
  have hfirst : ∀ x ∈ q, p.2 ≤ x.2 := (List.pairwise_cons.1 h.sorted).1
  have hlast : ∀ x ∈ q, x.2 ≤ p.2 + 1 := fun x hx => h.near p List.mem_cons_self x (List.mem_cons_of_mem p hx)
  have hdist : ∀ x ∈ new, x.2 = p.2 + 1 := fun x hx => (hnew x hx).1
  have hfilter : ∀ {x}, x ∈ new.filter (expand ·.1) ↔ x ∈ new ∧ expand x.1 := by simp
  have hwithin : ∀ m, Within next expand start p.2 m → m ∈ s.keys := fun m => by
    refine h.found (fun x hx => ?_) hstart
    rcases List.mem_cons.1 hx with rfl | hx
    · exact le_rfl
    · exact hfirst x hx
  have hkeys : ∀ m, m ∈ State.keys ((next p.1).foldl (visit expand p.2) { s with queue := q.map Prod.fst }) ↔
      m ∈ s.keys ∨ m ∈ new.map Prod.fst := fun m => by rw [State.keys, hfound, List.map_append, List.mem_append]; rfl
  refine ⟨new, hfound, fun x hx => (hnew x hx).2.1, ?_, fun x hx => ?_, ?_, fun x hx y hy => ?_, ?_, fun x hx => ?_,
    fun x hx he hq m hm => ?_⟩
  · rw [hqueue, List.map_append]
  · rw [hfound]
    rcases List.mem_append.1 hx with hx | hx
    · obtain ⟨hxf, hxe⟩ := h.mem x (List.mem_cons_of_mem p hx)
      exact ⟨List.mem_append_left _ hxf, hxe⟩
    · exact ⟨List.mem_append_right _ (hfilter.1 hx).1, .inr (hfilter.1 hx).2⟩
  · refine List.pairwise_append.2 ⟨(List.pairwise_cons.1 h.sorted).2, ?_, fun x hx y hy => ?_⟩
    · refine List.pairwise_of_forall_mem_list fun x hx y hy => ?_
      rw [hdist x (hfilter.1 hx).1, hdist y (hfilter.1 hy).1]
    · rw [hdist y (hfilter.1 hy).1]
      exact hlast x hx
  · have hlow : ∀ z ∈ q ++ new.filter (expand ·.1), p.2 ≤ z.2 ∧ z.2 ≤ p.2 + 1 := by
      intro z hz
      rcases List.mem_append.1 hz with hz | hz
      · exact ⟨hfirst z hz, hlast z hz⟩
      · rw [hdist z (hfilter.1 hz).1]
        exact ⟨Nat.le_succ _, le_rfl⟩
    have h1 := (hlow x hx).1
    have h2 := (hlow y hy).2
    omega
  · rw [State.keys, hfound, List.map_append]
    refine List.nodup_append.2 ⟨h.nodup, hnodup, fun x hx y hy hxy => ?_⟩
    obtain ⟨z, hz, rfl⟩ := List.mem_map.1 hy
    exact (hnew z hz).2.2 (hxy ▸ hx)
  · rw [hfound] at hx
    rcases List.mem_append.1 hx with hx | hx
    · exact h.exact x hx
    · obtain ⟨hd, hmem, hout⟩ := hnew x hx
      rw [hd]
      refine ⟨⟨((h.exact p hp).1.1).step hpe hmem, fun k hk hw => ?_⟩, hr⟩
      exact hout (hwithin x.1 (hw.mono (Nat.lt_succ_iff.1 hk)))
  · rw [hkeys]
    rw [hfound] at hx
    rw [List.mem_append, not_or] at hq
    rcases List.mem_append.1 hx with hx | hx
    · by_cases hxp : x = p
      · subst hxp
        exact hall m hm
      · refine .inl (h.closed x hx he (fun hmem => ?_) m hm)
        rcases List.mem_cons.1 hmem with heq | hmem
        · exact hxp heq
        · exact hq.1 hmem
    · rcases he with hes | he
      · exact absurd (hes ▸ hstart) (hnew x hx).2.2
      · exact absurd (hfilter.2 ⟨hx, he⟩) hq.2

/-- With fuel for the nodes that are not expanded yet, the loop finds all within the radius. -/
theorem loop_spec {scan : ℕ → α → State α → State α} (hscan : Scans expand next scan) {univ : List α}
    (huniv : ∀ n ∈ univ, ∀ m ∈ next n, m ∈ univ) : ∀ {fuel : ℕ} {s : State α} {q : List (α × ℕ)},
    Inv next expand start radius s q → start ∈ s.keys → (∀ m ∈ s.keys, m ∈ univ) →
      q.length + univ.length ≤ fuel + s.found.length →
      ((loop scan radius fuel s).map Prod.fst).Nodup ∧
        ∀ m d, (m, d) ∈ loop scan radius fuel s ↔ Distance next expand start m d ∧ d ≤ radius := by
  have hdone : ∀ {s : State α} {q : List (α × ℕ)}, Inv next expand start radius s q → start ∈ s.keys →
      (∀ p ∈ q, radius ≤ p.2) → s.keys.Nodup ∧ ∀ m d, (m, d) ∈ s.found ↔ Distance next expand start m d ∧ d ≤ radius := by
    intro s q h hstart hall
    refine ⟨h.nodup, fun m d => ⟨fun hm => h.exact _ hm, fun hm => ?_⟩⟩
    obtain ⟨k, hk⟩ := State.mem_keys.1 (h.found hall hstart (hm.1.1.mono hm.2))
    rw [hm.1.unique (h.exact _ hk).1]
    exact hk
  intro fuel
  induction fuel with
  | zero =>
    intro s q h hstart hsub hfuel
    have hlen : s.found.length ≤ univ.length := by
      have hle := (h.nodup.subperm hsub).length_le
      rwa [State.keys, List.length_map] at hle
    have hq : q = [] := List.length_eq_zero_iff.1 (by omega)
    exact hdone h hstart (by simp [hq])
  | succ fuel ih =>
    intro s q h hstart hsub hfuel
    cases q with
    | nil =>
      simp only [loop, h.queue, List.map_nil]
      exact hdone h hstart (by simp)
    | cons p q =>
      obtain ⟨hp, -⟩ := h.mem p List.mem_cons_self
      simp only [loop, h.queue, List.map_cons, h.dist hp]
      split_ifs with hr
      · refine hdone h hstart fun x hx => ?_
        rcases List.mem_cons.1 hx with rfl | hx
        · exact hr
        · exact hr.trans ((List.pairwise_cons.1 h.sorted).1 x hx)
      · obtain ⟨new, hfound, hnext, hinv⟩ := h.scan hstart (not_le.1 hr)
        rw [hscan]
        have hkeys : ∀ m ∈ State.keys ((next p.1).foldl (visit expand p.2) { s with queue := q.map Prod.fst }), m ∈ univ := by
          intro m hm
          rw [State.keys, hfound, List.map_append, List.mem_append] at hm
          rcases hm with hm | hm
          · exact hsub m hm
          · obtain ⟨x, hx, rfl⟩ := List.mem_map.1 hm
            exact huniv p.1 (hsub p.1 (List.mem_map_of_mem hp)) x.1 (hnext x hx)
        refine ih hinv ?_ hkeys ?_
        · rw [State.keys, hfound, List.map_append]
          exact List.mem_append_left _ hstart
        · have hfilter : (new.filter (expand ·.1)).length ≤ new.length := List.length_filter_le _ _
          rw [hfound, List.length_append, List.length_append]
          rw [List.length_cons] at hfuel
          omega

/-- The search finds the nodes within the radius, each once and at its distance. -/
theorem search_spec {scan : ℕ → α → State α → State α} (hscan : Scans expand next scan) {univ : List α} {fuel : ℕ}
    (huniv : ∀ n ∈ univ, ∀ m ∈ next n, m ∈ univ) (hstart : start ∈ univ) (hfuel : univ.length ≤ fuel) :
    ((search scan radius fuel start).map Prod.fst).Nodup ∧
      ∀ m d, (m, d) ∈ search scan radius fuel start ↔ Distance next expand start m d ∧ d ≤ radius := by
  refine loop_spec hscan huniv (inv_init (Nat.zero_le _)) (by simp [State.keys]) (fun m hm => ?_) (by simp; omega)
  obtain rfl : m = start := by simpa [State.keys] using hm
  exact hstart

end

end Bfs
