import Awds.Topo.Locality

/-!
# Shifting the locality

Nodes come and go one at a time. `Extended` says what is shown when some have come, and
`View.removeMarkedNodes_spec` what when some have gone; `View.shift_spec` puts the two together, in either order.
`Dimmed` says which edges became invisible. `LocalityUtils` does not make an edge visible again.
-/

namespace Topo

open GESUtils

variable {s s' t : St} {n m : NodeRef} {e k : EdgeRef} {N N' : NodeRef → Prop} {P : EdgeRef → Prop}
  {v v' : View}

/-! ## Nodes that come, one after the other -/

/-- The nodes `N` are shown, with the edges between them of which an end is new, and the edges `P`. -/
structure Extended (s s' : St) (N : NodeRef → Prop) (P : EdgeRef → Prop) : Prop where
  edge : s'.edge = s.edge
  old : ∀ m ∈ s.visibleLocality.nodes, N m
  shifted : Shifted s s' N (fun k => k ∈ s.visibleLocality.edges ∨ P k ∨ (k ∈ s.completeEltSet.edges ∧
    (∀ m, s.touches m k → N m) ∧ ∃ m, s.touches m k ∧ m ∉ s.visibleLocality.nodes))

theorem Browsed.extended (h : Browsed s) : Extended s s (· ∈ s.visibleLocality.nodes) (fun _ => False) where
  edge := rfl
  old _ hm := hm
  shifted := by
    refine ⟨h, .refl s, fun _ => Iff.rfl, fun k => ⟨.inl, fun hk => ?_⟩⟩
    rcases hk with hk | hk | ⟨-, hall, m, hm, hout⟩
    · exact hk
    · exact hk.elim
    · exact absurd (hall m hm) hout

theorem Extended.congr (h : Extended s t N P) (hN : ∀ m, N m ↔ N' m) : Extended s t N' P := by
  obtain rfl : N = N' := funext fun m => propext (hN m)
  exact h

theorem Extended.addNodeWithEdges (h : Extended s t N P) (hn : n ∈ s.completeEltSet.nodes) (hout : ¬N n) :
    (VisibleLocality.addNodeWithEdges n t).2 = none ∧
      Extended s (VisibleLocality.addNodeWithEdges n t).1 (fun m => N m ∨ m = n) P := by
  have hu := h.shifted.unmoved
  obtain ⟨hnone, hedge, hs⟩ := h.shifted.browsed.addNodeWithEdges (n := n) (by rw [hu.complete]; exact hn)
  have hnodes : ∀ m, m ∈ t.visibleLocality.nodes ∨ m = n ↔ N m ∨ m = n := fun m => or_congr_left (h.shifted.nodes m)
  refine ⟨hnone, hedge.trans h.edge, fun m hm => .inl (h.old m hm), hs.browsed, hu.trans hs.unmoved,
    fun m => (hs.nodes m).trans (hnodes m), fun k => (hs.edges k).trans ?_⟩
  simp only [h.shifted.edges, hu.complete, hu.touches, hnodes]
  constructor
  · rintro ((hk | hk | ⟨hk, hall, m, hm, hmo⟩) | ⟨hk, hkn, hall⟩)
    · exact .inl hk
    · exact .inr (.inl hk)
    · exact .inr (.inr ⟨hk, fun m hm => .inl (hall m hm), m, hm, hmo⟩)
    · exact .inr (.inr ⟨hk, hall, n, hkn, fun hin => hout (h.old n hin)⟩)
  · rintro (hk | hk | ⟨hk, hall, m, hm, hmo⟩)
    · exact .inl (.inl hk)
    · exact .inl (.inr (.inl hk))
    · by_cases hkn : s.touches n k
      · exact .inr ⟨hk, hkn, hall⟩
      · refine .inl (.inr (.inr ⟨hk, fun j hj => (hall j hj).resolve_right ?_, m, hm, hmo⟩))
        rintro rfl
        exact hkn hj

theorem Extended.addEdge (h : Extended s t N P) (he : e ∈ s.completeEltSet.edges) (hends : ∀ m, s.touches m e → N m) :
    Extended s (VisibleLocality.addEdge e t) N (fun k => P k ∨ k = e) := by
  have hu := h.shifted.unmoved
  obtain ⟨hedge, hs⟩ := h.shifted.browsed.addEdge (e := e) (by rw [hu.complete]; exact he) fun m hm =>
    (h.shifted.nodes m).2 (hends m ((hu.touches m e).1 hm))
  refine ⟨hedge.trans h.edge, h.old, hs.browsed, hu.trans hs.unmoved, fun m => (hs.nodes m).trans (h.shifted.nodes m),
    fun k => (hs.edges k).trans ?_⟩
  rw [h.shifted.edges, or_assoc]
  exact or_congr_right or_right_comm

namespace View

/-- The nodes `A` came; nothing was marked or selected. -/
structure Near (v v' : View) (A : NodeRef → Prop) : Prop where
  select : v'.select = v.select
  marked : v'.markedForRemoval = v.markedForRemoval
  just : ∀ m, v'.justMadeLocal m = true → v.justMadeLocal m = true ∨ A m

theorem Near.trans {A B : NodeRef → Prop} {w : View} (h : Near v v' A) (h' : Near v' w B) : Near v w fun m => A m ∨ B m where
  select := h'.select.trans h.select
  marked := h'.marked.trans h.marked
  just m hm := by
    rcases h'.just m hm with hm | hm
    · exact (h.just m hm).imp_right .inl
    · exact .inr (.inr hm)

theorem Near.mono {A B : NodeRef → Prop} (h : Near v v' A) (hAB : ∀ m, A m → B m) : Near v v' B :=
  ⟨h.select, h.marked, fun m hm => (h.just m hm).imp_right (hAB m)⟩

theorem addLocal_near (n : NodeRef) (v : View) : Near v (v.addLocal n).1 (· = n) where
  select := rfl
  marked := rfl
  just m hm := by
    by_cases hmn : m = n
    · exact .inr hmn
    · refine .inl ?_
      simpa [addLocal, Function.update_of_ne hmn] using hm

/-- The nodes of a list come that are near enough. -/
theorem addWithin_spec (distHash : List (NodeRef × Nat)) (r : Nat) : ∀ (ns : List NodeRef) {v : View} {N : NodeRef → Prop},
    Extended s v.panel N P → (∀ n ∈ ns, n ∈ s.completeEltSet.nodes) →
      (v.addWithin distHash r ns).2 = none ∧
        Extended s (v.addWithin distHash r ns).1.panel (fun m => N m ∨ m ∈ ns ∧ (distHash.lookup m).getD 0 ≤ r) P ∧
        Near v (v.addWithin distHash r ns).1 (fun m => m ∈ ns ∧ (distHash.lookup m).getD 0 ≤ r)
  | [], v, N, h, _ => ⟨rfl, h.congr fun m => by simp, rfl, rfl, fun m => .inl⟩
  | n :: ns, v, N, h, hns => by
    have hrest : ∀ m ∈ ns, m ∈ s.completeEltSet.nodes := fun m hm => hns m (List.mem_cons_of_mem n hm)
    by_cases hcond : n ∉ v.panel.visibleLocality.nodes ∧ (distHash.lookup n).getD 0 ≤ r
    · obtain ⟨hout, hr⟩ := hcond
      obtain ⟨hnone, hadd⟩ := h.addNodeWithEdges (hns n List.mem_cons_self) fun hN => hout ((h.shifted.nodes n).2 hN)
      have hpair : v.addLocal n = ((v.addLocal n).1, none) := Prod.ext rfl hnone
      have hpanel : (v.addLocal n).1.panel = (VisibleLocality.addNodeWithEdges n v.panel).1 := rfl
      rw [← hpanel] at hadd
      obtain ⟨hnone', hext, hnear⟩ := addWithin_spec distHash r ns hadd hrest
      rw [addWithin, if_pos ⟨hout, hr⟩, hpair]
      refine ⟨hnone', hext.congr fun m => ?_, ((addLocal_near n v).trans hnear).mono fun m => ?_⟩
      · rw [List.mem_cons, or_assoc]
        refine or_congr_right ?_
        constructor
        · rintro (rfl | ⟨hm, hmr⟩)
          · exact ⟨.inl rfl, hr⟩
          · exact ⟨.inr hm, hmr⟩
        · rintro ⟨rfl | hm, hmr⟩
          · exact .inl rfl
          · exact .inr ⟨hm, hmr⟩
      · rintro (rfl | ⟨hm, hmr⟩)
        · exact ⟨List.mem_cons_self, hr⟩
        · exact ⟨List.mem_cons_of_mem n hm, hmr⟩
    · obtain ⟨hnone', hext, hnear⟩ := addWithin_spec distHash r ns h hrest
      rw [addWithin, if_neg hcond]
      refine ⟨hnone', hext.congr fun m => ?_, hnear.mono fun m hm => ⟨List.mem_cons_of_mem n hm.1, hm.2⟩⟩
      rw [List.mem_cons]
      constructor
      · exact fun hm => hm.imp_right fun hm => ⟨.inr hm.1, hm.2⟩
      · rintro (hm | ⟨rfl | hm, hmr⟩)
        · exact .inl hm
        · have hin : m ∈ v.panel.visibleLocality.nodes := by
            by_contra hout
            exact hcond ⟨hout, hmr⟩
          exact .inl ((h.shifted.nodes m).1 hin)
        · exact .inr ⟨hm, hmr⟩

theorem addNearNodes_spec (distHash : List (NodeRef × Nat)) {keys : List NodeRef}
    (hkeys : ∀ n ∈ keys, n ∈ s.completeEltSet.nodes) : ∀ (rs : List Nat) {v : View} {N : NodeRef → Prop},
    Extended s v.panel N P →
      (v.addNearNodes distHash keys rs).2 = none ∧
        Extended s (v.addNearNodes distHash keys rs).1.panel
          (fun m => N m ∨ m ∈ keys ∧ ∃ r ∈ rs, (distHash.lookup m).getD 0 ≤ r) P ∧
        Near v (v.addNearNodes distHash keys rs).1 (· ∈ keys)
  | [], v, N, h => ⟨rfl, h.congr fun m => by simp, rfl, rfl, fun m => .inl⟩
  | r :: rs, v, N, h => by
    obtain ⟨hnone, hfirst, hnear⟩ := addWithin_spec distHash r keys h hkeys
    have hpair : v.addWithin distHash r keys = ((v.addWithin distHash r keys).1, none) := Prod.ext rfl hnone
    obtain ⟨hnone', hrest, hnear'⟩ := addNearNodes_spec distHash hkeys rs hfirst
    rw [addNearNodes, hpair]
    refine ⟨hnone', hrest.congr fun m => ?_, (hnear.trans hnear').mono fun m hm => hm.elim And.left id⟩
    rw [List.exists_mem_cons_iff, or_assoc]
    refine or_congr_right ?_
    rw [← and_or_left]

/-! ## Nodes that go -/

/-- Of the edges that were shown, those with an end outside of `N` became invisible. -/
def Dimmed (s s' : St) (N : NodeRef → Prop) : Prop :=
  ∀ k, s'.isVisible k = true ↔
    s.isVisible k = true ∧ (k ∈ s.visibleLocality.edges → ∀ n, s.touches n k → N n)

/-- What comes in between was not visible. -/
theorem Dimmed.after (hd : Dimmed t s' N) (h : Browsed s) (hb : Browsed t) (hu : Unmoved s t) (hedge : t.edge = s.edge)
    (hmore : ∀ k ∈ s.visibleLocality.edges, k ∈ t.visibleLocality.edges) : Dimmed s s' N := by
  intro k
  have hsame : t.isVisible k = s.isVisible k := by rw [St.isVisible, hedge, St.isVisible]
  refine (hd k).trans ?_
  simp only [hsame, hu.touches]
  refine and_congr_right fun hvis => ⟨fun hall hk => hall (hmore k hk), fun hall hk => hall ?_⟩
  by_contra hkl
  have hkc := hb.edges.2 k hk
  rw [hu.complete] at hkc
  rw [h.hidden k hkc hkl] at hvis
  cases hvis

theorem Dimmed.trans (hd : Dimmed s t N) (hu : Unmoved s t) (hd' : Dimmed t s' N')
    (hE : ∀ k, k ∈ t.visibleLocality.edges ↔ k ∈ s.visibleLocality.edges ∧ ∀ m, s.touches m k → N m) :
    Dimmed s s' fun m => N m ∧ N' m := by
  intro k
  rw [hd' k, hd k, hE]
  simp only [hu.touches]
  constructor
  · rintro ⟨⟨hvis, hN⟩, hN'⟩
    exact ⟨hvis, fun hk m hm => ⟨hN hk m hm, hN' ⟨hk, hN hk⟩ m hm⟩⟩
  · rintro ⟨hvis, hall⟩
    exact ⟨⟨hvis, fun hk m hm => (hall hk m hm).1⟩, fun hk m hm => (hall hk.1 m hm).2⟩

theorem without_spec (h : Browsed s) (n : NodeRef) : Dimmed s (VisibleLocality.removeNode n s) (· ≠ n) ∧
    Shifted s (VisibleLocality.removeNode n s) (fun m => m ∈ s.visibleLocality.nodes ∧ m ≠ n)
      (fun k => k ∈ s.visibleLocality.edges ∧ ∀ m, s.touches m k → m ≠ n) := by
  obtain ⟨hvis, hs⟩ := h.removeNode n
  have hends : ∀ k, ¬s.touches n k ↔ ∀ m, s.touches m k → m ≠ n := fun k =>
    ⟨fun hk m hm heq => hk (heq ▸ hm), fun hall hk => hall n hk rfl⟩
  refine ⟨fun k => ?_, hs.browsed, hs.unmoved, hs.nodes, fun k => (hs.edges k).trans (and_congr_right fun _ => hends k)⟩
  rw [hvis, Bool.and_eq_true, Bool.not_eq_true', decide_eq_false_iff_not, not_and, hends]

/-- All that was marked goes, with its edges. -/
theorem removeMarkedNodes_spec (h : Browsed v.panel)
    (hm : ∀ n, v.markedForRemoval n = true → n ∈ v.panel.visibleLocality.nodes) :
    (∀ n, v.removeMarkedNodes.markedForRemoval n = false) ∧
      Dimmed v.panel v.removeMarkedNodes.panel (v.markedForRemoval · = false) ∧
      Shifted v.panel v.removeMarkedNodes.panel
        (fun n => n ∈ v.panel.visibleLocality.nodes ∧ v.markedForRemoval n = false)
        (fun k => k ∈ v.panel.visibleLocality.edges ∧ ∀ n, v.panel.touches n k → v.markedForRemoval n = false) := by
  obtain ⟨hvis, hrem⟩ := h.removeNodes (v.panel.visibleLocality.nodes.filter v.markedForRemoval)
  have hends : ∀ k, (∀ n ∈ v.panel.visibleLocality.nodes.filter v.markedForRemoval, ¬v.panel.touches n k) ↔
      ∀ n, v.panel.touches n k → v.markedForRemoval n = false := by
    intro k
    refine ⟨fun hall n ht => ?_, fun hall n hn ht => ?_⟩
    · by_contra hmark
      rw [Bool.not_eq_false] at hmark
      exact hall n (List.mem_filter.2 ⟨hm n hmark, hmark⟩) ht
    · have hmark := (List.mem_filter.1 hn).2
      rw [hall n ht] at hmark
      cases hmark
  refine ⟨fun n => ?_, fun k => (hvis k).trans ?_, hrem.browsed, hrem.unmoved, fun n => (hrem.nodes n).trans ?_,
    fun k => (hrem.edges k).trans ?_⟩
  · cases hn : v.markedForRemoval n with
    | false => simp [removeMarkedNodes, hn]
    | true => simp [removeMarkedNodes, hm n hn]
  · rw [hends]
  · refine and_congr_right fun hn => ?_
    rw [List.mem_filter, not_and, Bool.not_eq_true]
    exact ⟨fun hmark => hmark hn, fun hmark _ => hmark⟩
  · rw [hends]

theorem markDistantNodes_marked (hm : ∀ n, v.markedForRemoval n = false) (subgraph : List NodeRef) (n : NodeRef) :
    (v.markDistantNodes subgraph).markedForRemoval n =
      decide (n ∈ v.panel.visibleLocality.nodes ∧ n ∉ subgraph) := by
  simp only [markDistantNodes, hm n, Bool.false_or]

/-- What is not within `subgraph` goes. -/
theorem keep_spec (h : Browsed v.panel) (hm : ∀ n, v.markedForRemoval n = false) (subgraph : List NodeRef) :
    (∀ n, (v.markDistantNodes subgraph).removeMarkedNodes.markedForRemoval n = false) ∧
      Dimmed v.panel (v.markDistantNodes subgraph).removeMarkedNodes.panel (· ∈ subgraph) ∧
      Shifted v.panel (v.markDistantNodes subgraph).removeMarkedNodes.panel
        (fun n => n ∈ v.panel.visibleLocality.nodes ∧ n ∈ subgraph)
        (fun k => k ∈ v.panel.visibleLocality.edges ∧ ∀ n, v.panel.touches n k → n ∈ subgraph) := by
  have hmarked := markDistantNodes_marked hm subgraph
  have hfalse : ∀ n ∈ v.panel.visibleLocality.nodes,
      ((v.markDistantNodes subgraph).markedForRemoval n = false ↔ n ∈ subgraph) := fun n hn => by
    rw [hmarked, decide_eq_false_iff_not, not_and, not_not]
    exact ⟨fun hall => hall hn, fun hin _ => hin⟩
  have hends : ∀ k ∈ v.panel.visibleLocality.edges,
      ((∀ n, v.panel.touches n k → (v.markDistantNodes subgraph).markedForRemoval n = false) ↔
        ∀ n, v.panel.touches n k → n ∈ subgraph) := fun k hk =>
    forall_congr' fun n => imp_congr_right fun ht => hfalse n (h.ends k hk n ht)
  obtain ⟨hclear, hdim, hs⟩ := removeMarkedNodes_spec (v := v.markDistantNodes subgraph) h fun n hn => by
    rw [hmarked, decide_eq_true_eq] at hn
    exact hn.1
  exact ⟨hclear, fun k => (hdim k).trans (and_congr_right fun _ => forall_congr' (hends k)), hs.browsed, hs.unmoved,
    fun n => (hs.nodes n).trans (and_congr_right fun hn => hfalse n hn),
    fun k => (hs.edges k).trans (and_congr_right fun hk => hends k hk)⟩

/-- The same, when the node `n` comes in between. -/
theorem keepWith_spec (h : Browsed v.panel) (hm : ∀ n, v.markedForRemoval n = false) (hn : n ∈ v.panel.completeEltSet.nodes)
    (hout : n ∉ v.panel.visibleLocality.nodes) (subgraph : List NodeRef) :
    let w := { v.markDistantNodes subgraph with panel := (VisibleLocality.addNodeWithEdges n v.panel).1 }.removeMarkedNodes
    (∀ n, w.markedForRemoval n = false) ∧ Dimmed v.panel w.panel (· ∈ subgraph) ∧
      Shifted v.panel w.panel (fun m => m ∈ v.panel.visibleLocality.nodes ∧ m ∈ subgraph ∨ m = n)
        (fun k => (∀ m, v.panel.touches m k → m ∈ v.panel.visibleLocality.nodes ∧ m ∈ subgraph ∨ m = n) ∧
          (k ∈ v.panel.visibleLocality.edges ∨ k ∈ v.panel.completeEltSet.edges ∧ v.panel.touches n k)) := by
  intro w
  obtain ⟨-, hedge, hadd⟩ := h.addNodeWithEdges hn
  have hmarked := markDistantNodes_marked hm subgraph
  obtain ⟨hclear, hdim, hrem⟩ := removeMarkedNodes_spec
    (v := { v.markDistantNodes subgraph with panel := (VisibleLocality.addNodeWithEdges n v.panel).1 })
    hadd.browsed fun m hm => by
      rw [hmarked, decide_eq_true_eq] at hm
      exact (hadd.nodes m).2 (.inl hm.1)
  -- what was shown and is not in the subgraph is marked, and `n` is not
  have hstay : ∀ m, (m ∈ v.panel.visibleLocality.nodes ∨ m = n) ∧ (v.markDistantNodes subgraph).markedForRemoval m = false ↔
      m ∈ v.panel.visibleLocality.nodes ∧ m ∈ subgraph ∨ m = n := by
    intro m
    rw [hmarked, decide_eq_false_iff_not, not_and, not_not]
    constructor
    · rintro ⟨hm | rfl, hmk⟩
      · exact .inl ⟨hm, hmk hm⟩
      · exact .inr rfl
    · rintro (⟨hm, hmk⟩ | rfl)
      · exact ⟨.inl hm, fun _ => hmk⟩
      · exact ⟨.inr rfl, fun hm => absurd hm hout⟩
  refine ⟨hclear, fun k => (hdim.after h hadd.browsed hadd.unmoved hedge fun k hk => (hadd.edges k).2 (.inl hk)) k |>.trans ?_,
    hrem.browsed, hadd.unmoved.trans hrem.unmoved,
    fun m => (hrem.nodes m).trans ((and_congr_left' (hadd.nodes m)).trans (hstay m)), fun k => (hrem.edges k).trans ?_⟩
  · refine and_congr_right fun _ => forall_congr' fun hk => forall_congr' fun m => imp_congr_right fun hm => ?_
    have hml := h.ends k hk m hm
    change (v.markDistantNodes subgraph).markedForRemoval m = false ↔ m ∈ subgraph
    rw [hmarked, decide_eq_false_iff_not, not_and, not_not]
    exact ⟨fun hin => hin hml, fun hin _ => hin⟩
  · simp only [hadd.edges, hadd.unmoved.touches]
    constructor
    · rintro ⟨hk | ⟨hk, hkn, hall⟩, hclear⟩
      · exact ⟨fun m hm => (hstay m).1 ⟨.inl (h.ends k hk m hm), hclear m hm⟩, .inl hk⟩
      · exact ⟨fun m hm => (hstay m).1 ⟨hall m hm, hclear m hm⟩, .inr ⟨hk, hkn⟩⟩
    · rintro ⟨hall, hk⟩
      exact ⟨hk.imp_right fun hk => ⟨hk.1, hk.2, fun m hm => ((hstay m).2 (hall m hm)).1⟩,
        fun m hm => ((hstay m).2 (hall m hm)).2⟩

/-! ## Both -/

/-- What edits and offered commands lead to: the marks of a command are gone behind it. -/
structure Idle (v : View) : Prop where
  browsed : Browsed v.panel
  just : ∀ n, v.justMadeLocal n = false
  marked : ∀ n, v.markedForRemoval n = false

/-- An edge between nodes `K`, of which one was not shown, or that was shown itself. -/
def Shows (s : St) (K : NodeRef → Prop) (k : EdgeRef) : Prop :=
  k ∈ s.completeEltSet.edges ∧ (∀ m, s.touches m k → K m) ∧
    (k ∈ s.visibleLocality.edges ∨ ∃ m, s.touches m k ∧ m ∉ s.visibleLocality.nodes)

theorem unmark_just (v : View) (h : ∀ n, v.justMadeLocal n = true → n ∈ v.panel.visibleLocality.nodes) (n : NodeRef) :
    v.unmarkNewAdditions.justMadeLocal n = false := by
  cases hn : v.justMadeLocal n with
  | false => simp [unmarkNewAdditions, hn]
  | true => simp [unmarkNewAdditions, h n hn]

section
variable {distHash : List (NodeRef × Nat)} {keys subgraph : List NodeRef} {rs : List Nat}

/-- The new nodes come, then the far ones go. -/
theorem comeThenGo_spec (h : Idle v) (hsub : ∀ m ∈ keys, m ∈ subgraph)
    (hkeys : ∀ m ∈ keys, m ∈ v.panel.completeEltSet.nodes)
    (hnear : ∀ m, (m ∈ keys ∧ ∃ r ∈ rs, (distHash.lookup m).getD 0 ≤ r) ↔ m ∈ subgraph) :
    let w := ((v.addNearNodes distHash keys rs).1.unmarkNewAdditions.markDistantNodes subgraph).removeMarkedNodes
    (v.addNearNodes distHash keys rs).2 = none ∧ Idle w ∧ w.select = v.select ∧
      Dimmed v.panel w.panel (· ∈ subgraph) ∧
      Shifted v.panel w.panel (· ∈ subgraph) (Shows v.panel (· ∈ subgraph)) := by
  intro w
  obtain ⟨hnone, hext, hcame⟩ := addNearNodes_spec distHash hkeys rs h.browsed.extended
  generalize hx : (v.addNearNodes distHash keys rs).1 = x at hext hcame
  have hwx : w = (x.unmarkNewAdditions.markDistantNodes subgraph).removeMarkedNodes := by rw [← hx]
  have hxn := hext.shifted.nodes
  have hjust : ∀ m, x.justMadeLocal m = true → m ∈ x.panel.visibleLocality.nodes := by
    intro m hm
    rcases hcame.just m hm with hj | hk
    · rw [h.just m] at hj
      cases hj
    · exact (hxn m).2 (.inr ((hnear m).2 (hsub m hk)))
  have hunmarked : ∀ m, x.markedForRemoval m = false := fun m => by rw [hcame.marked, h.marked m]
  obtain ⟨hclear, hdim, hs⟩ := keep_spec (v := x.unmarkNewAdditions) hext.shifted.browsed hunmarked subgraph
  have hu := hext.shifted.unmoved
  have hedges : ∀ k, k ∈ x.unmarkNewAdditions.panel.visibleLocality.edges ↔ _ := hext.shifted.edges
  have htouch : ∀ m k, x.unmarkNewAdditions.panel.touches m k ↔ v.panel.touches m k := hu.touches
  have hdim := hdim.after h.browsed hext.shifted.browsed hu hext.edge fun k hk => (hedges k).2 (.inl hk)
  rw [hwx]
  refine ⟨hnone, ⟨hs.browsed, unmark_just x hjust, hclear⟩, hcame.select, hdim, hs.browsed,
    hu.trans hs.unmoved, fun m => ?_, fun k => (hs.edges k).trans ?_⟩
  · exact (hs.nodes m).trans ⟨And.right, fun hm => ⟨(hxn m).2 (.inr ((hnear m).2 hm)), hm⟩⟩
  · simp only [hedges, htouch, hnear, Shows]
    constructor
    · rintro ⟨hk | hk | ⟨hk, -, hout⟩, hall⟩
      · exact ⟨h.browsed.edges.2 k hk, hall, .inl hk⟩
      · exact hk.elim
      · exact ⟨hk, hall, .inr hout⟩
    · rintro ⟨hk, hall, hshown | hout⟩
      · exact ⟨.inl hshown, hall⟩
      · exact ⟨.inr (.inr ⟨hk, fun m hm => .inr (hall m hm), hout⟩), hall⟩

/-- The far nodes go, then the new ones come. -/
theorem goThenCome_spec (h : Idle v) (hsub : ∀ m ∈ keys, m ∈ subgraph)
    (hkeys : ∀ m ∈ keys, m ∈ v.panel.completeEltSet.nodes)
    (hnear : ∀ m, (m ∈ keys ∧ ∃ r ∈ rs, (distHash.lookup m).getD 0 ≤ r) ↔ m ∈ subgraph) :
    let w := (v.markDistantNodes subgraph).removeMarkedNodes.addNearNodes distHash keys rs
    w.2 = none ∧ Idle w.1.unmarkNewAdditions ∧ w.1.select = v.select ∧
      Dimmed v.panel w.1.panel (· ∈ subgraph) ∧
      Shifted v.panel w.1.panel (· ∈ subgraph) (Shows v.panel (· ∈ subgraph)) := by
  intro w
  obtain ⟨hclear, hdim, hs⟩ := keep_spec h.browsed h.marked subgraph
  have hjust₀ : ∀ m, (v.markDistantNodes subgraph).removeMarkedNodes.justMadeLocal m = false := h.just
  have hselect₀ : (v.markDistantNodes subgraph).removeMarkedNodes.select = v.select := rfl
  simp only [w]
  generalize (v.markDistantNodes subgraph).removeMarkedNodes = x at hs hclear hdim hjust₀ hselect₀ ⊢
  have hu := hs.unmoved
  obtain ⟨hnone, hext, hcame⟩ := addNearNodes_spec (s := x.panel) distHash
    (by rw [hu.complete]; exact hkeys) rs hs.browsed.extended
  generalize x.addNearNodes distHash keys rs = y at hnone hext hcame ⊢
  have hnodes : ∀ m, m ∈ y.1.panel.visibleLocality.nodes ↔ m ∈ subgraph := fun m => by
    rw [hext.shifted.nodes, hs.nodes, hnear]
    exact ⟨fun hm => hm.elim And.right id, .inr⟩
  have hjust : ∀ m, y.1.justMadeLocal m = true → m ∈ y.1.panel.visibleLocality.nodes := by
    intro m hm
    rcases hcame.just m hm with hj | hk
    · rw [hjust₀ m] at hj
      cases hj
    · exact (hnodes m).2 (hsub m hk)
  have hsame : ∀ k, y.1.panel.isVisible k = x.panel.isVisible k := fun k => by
    rw [St.isVisible, hext.edge, St.isVisible]
  refine ⟨hnone, ⟨hext.shifted.browsed, unmark_just y.1 hjust, fun m => (congrFun hcame.marked m).trans (hclear m)⟩,
    hcame.select.trans hselect₀, fun k => by rw [hsame]; exact hdim k, hext.shifted.browsed,
    hu.trans hext.shifted.unmoved, hnodes, fun k => (hext.shifted.edges k).trans ?_⟩
  simp only [hs.edges, hs.nodes, hu.complete, hu.touches, hnear, Shows]
  constructor
  · rintro (⟨hk, hall⟩ | hk | ⟨hk, hall, m, hm, hout⟩)
    · exact ⟨h.browsed.edges.2 k hk, hall, .inl hk⟩
    · exact hk.elim
    · have hall : ∀ m, v.panel.touches m k → m ∈ subgraph := fun m hm => (hall m hm).elim And.right id
      exact ⟨hk, hall, .inr ⟨m, hm, fun hin => hout ⟨hin, hall m hm⟩⟩⟩
  · rintro ⟨hk, hall, hshown | ⟨m, hm, hout⟩⟩
    · exact .inl ⟨hshown, hall⟩
    · exact .inr (.inr ⟨hk, fun j hj => .inr (hall j hj), m, hm, fun hin => hout hin.1⟩)

end

/-- Whether nodes come first or go first, the locality becomes the nodes at distances up to `radius`. -/
theorem shift_spec (h : Idle v) {keys : List NodeRef → List NodeRef} (hkeys : ∀ l, (keys l).Perm l)
    (hn : n ∈ v.panel.completeEltSet.nodes) (radius : Nat) (l : Limits) :
    let ball := (calculateDistances v.panel v.panel.completeEltSet n radius l).map Prod.fst
    Idle (v.shiftLocale keys n radius l) ∧ (v.shiftLocale keys n radius l).select = v.select ∧
      Dimmed v.panel (v.shiftLocale keys n radius l).panel (· ∈ ball) ∧
      Shifted v.panel (v.shiftLocale keys n radius l).panel (· ∈ ball) (Shows v.panel (· ∈ ball)) := by
  intro ball
  have htrav : Traversable v.panel v.panel.completeEltSet := h.browsed.traversable
  obtain ⟨-, hspec⟩ := calculateDistances_spec htrav.closed (htrav.made n hn) radius l
  have hmem : ∀ m, m ∈ keys ball ↔ m ∈ ball := fun m => (hkeys ball).mem_iff
  generalize hdist : calculateDistances v.panel v.panel.completeEltSet n radius l = distHash at hspec
  have hball : ball = distHash.map Prod.fst := congrArg (List.map Prod.fst) hdist
  have hin : ∀ m ∈ ball, m ∈ v.panel.completeEltSet.nodes ∧ ∃ r ∈ List.range (radius + 1),
      (distHash.lookup m).getD 0 ≤ r := by
    intro m hm
    rw [hball] at hm
    obtain ⟨p, hp, rfl⟩ := List.mem_map.1 hm
    obtain ⟨hd, -⟩ := (hspec p.1 p.2).1 hp
    refine ⟨htrav.mem_of_within hn hd.1, radius, List.mem_range.2 (Nat.lt_succ_self _), ?_⟩
    cases hlook : distHash.lookup p.1 with
    | none => exact Nat.zero_le _
    | some d =>
      obtain ⟨l₁, l₂, hl, -⟩ := List.lookup_eq_some_iff.1 hlook
      exact ((hspec p.1 d).1 (hl ▸ List.mem_append_right l₁ List.mem_cons_self)).2
  have hkeysIn : ∀ m ∈ keys ball, m ∈ v.panel.completeEltSet.nodes := fun m hm => (hin m ((hmem m).1 hm)).1
  have hnear : ∀ m, (m ∈ keys ball ∧ ∃ r ∈ List.range (radius + 1), (distHash.lookup m).getD 0 ≤ r) ↔ m ∈ ball :=
    fun m => ⟨fun hm => (hmem m).1 hm.1, fun hm => ⟨(hmem m).2 hm, (hin m hm).2⟩⟩
  rw [shiftLocale, if_pos hn]
  simp only [hdist, ← hball]
  by_cases hr : radius = 1
  · obtain ⟨hnone, hspec⟩ := comeThenGo_spec h (fun m => (hmem m).1) hkeysIn hnear
    rw [if_pos hr, show v.addNearNodes distHash (keys ball) (List.range (radius + 1)) = (_, none) from Prod.ext rfl hnone]
    exact hspec
  · obtain ⟨hnone, hspec⟩ := goThenCome_spec h (fun m => (hmem m).1) hkeysIn hnear
    rw [if_neg hr, show (v.markDistantNodes ball).removeMarkedNodes.addNearNodes distHash (keys ball)
      (List.range (radius + 1)) = (_, none) from Prod.ext rfl hnone]
    exact hspec

/-! ## All that there is -/

theorem addNodes_spec : ∀ (ns : List NodeRef) {s : St}, Browsed s → (∀ n ∈ ns, n ∈ s.completeEltSet.nodes) →
    (VisibleLocality.addNodes ns s).2 = none ∧ (VisibleLocality.addNodes ns s).1.edge = s.edge ∧
      Shifted s (VisibleLocality.addNodes ns s).1
        (fun m => m ∈ s.visibleLocality.nodes ∨ m ∈ ns) (· ∈ s.visibleLocality.edges)
  | [], s, h, _ => ⟨rfl, rfl, h, .refl s, fun m => by simp [VisibleLocality.addNodes], fun _ => Iff.rfl⟩
  | n :: ns, s, h, hns => by
    obtain ⟨hnone, hedge, hfirst⟩ := h.addNode (hns n List.mem_cons_self)
    have hpair : VisibleLocality.addNode n s = ((VisibleLocality.addNode n s).1, none) := Prod.ext rfl hnone
    obtain ⟨hnone', hedge', hrest⟩ := addNodes_spec ns hfirst.browsed fun m hm => by
      rw [hfirst.unmoved.complete]
      exact hns m (List.mem_cons_of_mem n hm)
    rw [VisibleLocality.addNodes, hpair]
    refine ⟨hnone', hedge'.trans hedge, hrest.browsed, hfirst.unmoved.trans hrest.unmoved, fun m => (hrest.nodes m).trans ?_,
      fun k => (hrest.edges k).trans (hfirst.edges k)⟩
    rw [hfirst.nodes, List.mem_cons, or_assoc]

theorem addEdges_spec : ∀ (es : List EdgeRef) {s : St}, Browsed s → (∀ e ∈ es, e ∈ s.completeEltSet.edges) →
    (∀ n ∈ s.completeEltSet.nodes, n ∈ s.visibleLocality.nodes) →
      (es.foldl (fun s e => VisibleLocality.addEdge e s) s).edge = s.edge ∧
        Shifted s (es.foldl (fun s e => VisibleLocality.addEdge e s) s) (· ∈ s.visibleLocality.nodes)
          (fun k => k ∈ s.visibleLocality.edges ∨ k ∈ es)
  | [], s, h, _, _ => ⟨rfl, h, .refl s, fun _ => Iff.rfl, fun k => by simp⟩
  | e :: es, s, h, hes, hall => by
    have he := hes e List.mem_cons_self
    obtain ⟨hedge, hfirst⟩ := h.addEdge he fun n hn => hall n (h.closed e he n hn)
    obtain ⟨hedge', hrest⟩ := addEdges_spec es hfirst.browsed
      (fun k hk => by rw [hfirst.unmoved.complete]; exact hes k (List.mem_cons_of_mem e hk))
      (fun n hn => (hfirst.nodes n).2 (hall n (by rwa [hfirst.unmoved.complete] at hn)))
    refine ⟨hedge'.trans hedge, hrest.browsed, hfirst.unmoved.trans hrest.unmoved,
      fun m => (hrest.nodes m).trans (hfirst.nodes m), fun k => (hrest.edges k).trans ?_⟩
    rw [hfirst.edges, List.mem_cons, or_assoc]

theorem addAll_spec (h : Browsed s) : (VisibleLocality.addAll s).2 = none ∧
    (VisibleLocality.addAll s).1.edge = s.edge ∧
    Shifted s (VisibleLocality.addAll s).1 (· ∈ s.completeEltSet.nodes) (· ∈ s.completeEltSet.edges) := by
  obtain ⟨hnone, hedge, hnodes⟩ := addNodes_spec s.completeEltSet.nodes h fun _ hn => hn
  have hpair : VisibleLocality.addNodes s.completeEltSet.nodes s =
      ((VisibleLocality.addNodes s.completeEltSet.nodes s).1, none) := Prod.ext rfl hnone
  generalize (VisibleLocality.addNodes s.completeEltSet.nodes s).1 = t at hnodes hpair hedge
  have hu := hnodes.unmoved
  obtain ⟨hedge', hedges⟩ := addEdges_spec t.completeEltSet.edges hnodes.browsed (fun _ he => he)
    fun n hn => (hnodes.nodes n).2 (.inr (by rwa [hu.complete] at hn))
  rw [VisibleLocality.addAll, hpair]
  refine ⟨rfl, hedge'.trans hedge, hedges.browsed, hu.trans hedges.unmoved, fun m => ?_, fun k => ?_⟩
  · refine (hedges.nodes m).trans ((hnodes.nodes m).trans ⟨fun hm => ?_, .inr⟩)
    exact hm.elim (h.nodes.2 m) id
  · refine (hedges.edges k).trans ?_
    rw [hnodes.edges, hu.complete]
    exact ⟨fun hk => hk.elim (h.edges.2 k) id, .inr⟩

end View

end Topo
