import Awds.Topo.Browse

/-!
# What the commands show

`setLocale`, `expandNode`, `hideNode` and `collapseNode`, from any state between two commands (`View.Idle`).
-/

namespace Topo

open GESUtils

variable {s s' t : St} {n m : NodeRef} {e k : EdgeRef} {N N' : NodeRef → Prop} {P : EdgeRef → Prop}
  {v v' : View}

namespace View

/-- The panel of an editor, before anything was hidden. -/
def start (s : St) (select : Option NodeRef) : View := ⟨s, select, fun _ => false, fun _ => false⟩

theorem start_panel (s : St) (select : Option NodeRef) : (start s select).panel = s := rfl

theorem start_idle (h : Lts.Reach call Edits init s) (select : Option NodeRef) : Idle (start s select) where
  browsed := (h.invariant (I := Tidy) Tidy.init fun _ _ _ ht ho hc => ht.call ho hc).browsed
  just _ := rfl
  marked _ := rfl

/-- Three nodes in a row. -/
def chainCalls : List Call :=
  [.newNode (some "1") none, .addNode 0, .newNode (some "2") none, .addNode 1, .addEdgeBetween 0 1,
    .newNode (some "3") none, .addNode 2, .addEdgeBetween 1 2]

theorem chainCalls_possible : (Lts.execOk call Edits init chainCalls).isSome = true := by decide +kernel

def chain : St := (Lts.execOk call Edits init chainCalls).get chainCalls_possible

theorem chain_reached : Lts.Reach call Edits init chain := Lts.reach_get chainCalls chainCalls_possible

/-! ### `setLocale` -/

/-- What is shown at `radius` around `n`: all that there is, or what is so many steps away. -/
def Target (v : View) (n : NodeRef) (radius : Int) (l : Limits) (m : NodeRef) : Prop :=
  m ∈ v.panel.completeEltSet.nodes ∧ (radius = infiniteRadius ∨
    Bfs.Within (next v.panel v.panel.completeEltSet l) (Passable v.panel l) n radius.toNat m)

/-- **After `setLocale` what is shown is what was asked for, in whatever order the nodes came.** -/
theorem setLocale_spec (h : Idle v) {keys : List NodeRef → List NodeRef} (hkeys : ∀ l, (keys l).Perm l)
    (hn : n ∈ v.panel.completeEltSet.nodes) {radius : Int} (hr : 0 ≤ radius) (l : Limits) :
    Idle (v.setLocale keys (some n) radius l) ∧
      Shifted v.panel (v.setLocale keys (some n) radius l).panel (Target v n radius l) (fun k =>
        (radius = infiniteRadius ∧ k ∈ v.panel.completeEltSet.edges) ∨ Shows v.panel (Target v n radius l) k) := by
  have hb := h.browsed
  rw [setLocale, if_neg (not_lt.2 hr)]
  by_cases hinf : radius = infiniteRadius
  · obtain ⟨-, -, hs⟩ := addAll_spec hb
    rw [if_pos hinf]
    refine ⟨⟨hs.browsed, h.just, h.marked⟩, hs.browsed, hs.unmoved, fun m => (hs.nodes m).trans ?_,
      fun k => (hs.edges k).trans ?_⟩
    · exact ⟨fun hm => ⟨hm, .inl hinf⟩, And.left⟩
    · exact ⟨fun hk => .inl ⟨hinf, hk⟩, fun hk => hk.elim And.right And.left⟩
  · obtain ⟨hidle, -, -, hs⟩ := shift_spec h hkeys hn radius.toNat l
    have htrav : Traversable v.panel v.panel.completeEltSet := hb.traversable
    obtain ⟨-, hdist⟩ := calculateDistances_spec htrav.closed (htrav.made n hn) radius.toNat l
    have hball : (· ∈ (calculateDistances v.panel v.panel.completeEltSet n radius.toNat l).map Prod.fst) =
        Target v n radius l := by
      funext m
      refine propext ⟨fun hm => ?_, fun ⟨_, hm⟩ => ?_⟩
      · obtain ⟨p, hp, rfl⟩ := List.mem_map.1 hm
        obtain ⟨hd, hle⟩ := (hdist p.1 p.2).1 hp
        exact ⟨htrav.mem_of_within hn hd.1, .inr (hd.1.mono hle)⟩
      · obtain ⟨d, hle, hd⟩ := (hm.resolve_left hinf).distance
        exact List.mem_map.2 ⟨(m, d), (hdist m d).2 ⟨hd, hle⟩, rfl⟩
    rw [if_neg hinf]
    rw [hball] at hs
    refine ⟨hidle, hs.browsed, hs.unmoved, hs.nodes, fun k => (hs.edges k).trans ⟨.inr, fun hk => ?_⟩⟩
    exact hk.resolve_left fun hk => hinf hk.1

theorem setLocale_spec_chain :
    2 ∈ ((start chain none).setLocale List.reverse (some 0) 1 .default).panel.visibleLocality.nodes ↔
      Target (start chain none) 0 1 .default 2 :=
  (setLocale_spec (start_idle chain_reached none) (fun l => List.reverse_perm l) (by decide +kernel) (by decide)
    .default).2.nodes 2

/-- The third node is two steps away. -/
example : ((start chain none).setLocale List.reverse (some 0) 1 .default).panel.visibleLocality.nodes = [0, 1] := by
  decide +kernel

/-! ### `expandNode` -/

/-- One round: the node at the other end of `e` comes, or is there and `e` comes. -/
theorem expandEdge_spec (h : Extended s v.panel N P) (hn : n ∈ s.visibleLocality.nodes) (he : e ∈ (s.node n).edges) :
    let newNode := v.panel.getOtherEndpt e n
    let w := if newNode ∉ v.panel.visibleLocality.nodes then (v.addLocal newNode).1
      else if e ∉ v.panel.visibleLocality.edges then { v with panel := VisibleLocality.addEdge e v.panel } else v
    ∃ P' : EdgeRef → Prop, Extended s w.panel (fun m => N m ∨ m = s.getOtherEndpt e n) P' ∧ (∀ k, P k → P' k) ∧
      (∀ k, P' k → P k ∨ k = e) ∧ e ∈ w.panel.visibleLocality.edges ∧ Near v w (· = s.getOtherEndpt e n) := by
  intro newNode w
  have hu := h.shifted.unmoved
  have hb := h.shifted.browsed
  have hnv : n ∈ v.panel.visibleLocality.nodes := (h.shifted.nodes n).2 (h.old n hn)
  obtain ⟨hec, het⟩ := (hb.mem_vector (hb.nodes.2 n hnv)).1 (by rw [hu.node]; exact he)
  rw [hu.complete] at hec
  rw [hu.touches] at het
  have hnew : newNode = s.getOtherEndpt e n := hu.otherEndpt e n
  have hends : ∀ m, s.touches m e ↔ m = n ∨ m = newNode := fun m => by rw [hnew]; exact touches_iff het
  have hcomplete : newNode ∈ s.completeEltSet.nodes := by
    rw [← hu.complete]
    exact hb.closed e (by rw [hu.complete]; exact hec) newNode ((hu.touches _ _).2 ((hends newNode).2 (.inr rfl)))
  rw [← hnew]
  by_cases hin : newNode ∈ v.panel.visibleLocality.nodes
  · have hN : N newNode := (h.shifted.nodes newNode).1 hin
    have hsame : ∀ m, N m ↔ N m ∨ m = newNode := fun m => ⟨.inl, fun hm => hm.elim id fun heq => heq ▸ hN⟩
    have hNe : ∀ m, s.touches m e → N m := fun m hm => by
      rcases (hends m).1 hm with rfl | rfl
      · exact h.old m hn
      · exact hN
    by_cases hel : e ∈ v.panel.visibleLocality.edges
    · have hw : w = v := by simp only [w, hin, hel, not_true_eq_false, if_false]
      rw [hw]
      exact ⟨P, h.congr hsame, fun _ => id, fun _ => .inl, hel, rfl, rfl, fun m => .inl⟩
    · have hw : w = { v with panel := VisibleLocality.addEdge e v.panel } := by
        simp only [w, hin, hel, not_true_eq_false, not_false_eq_true, if_false, if_true]
      have hadd := h.addEdge hec hNe
      rw [hw]
      exact ⟨_, hadd.congr hsame, fun _ => .inl, fun _ => id, (hadd.shifted.edges e).2 (.inr (.inl (.inr rfl))), rfl, rfl,
        fun m => .inl⟩
  · have hw : w = (v.addLocal newNode).1 := if_pos hin
    have hN : ¬N newNode := fun hN => hin ((h.shifted.nodes newNode).2 hN)
    obtain ⟨-, hadd⟩ := h.addNodeWithEdges hcomplete hN
    rw [hw]
    refine ⟨P, hadd, fun _ => id, fun _ => .inl, (hadd.shifted.edges e).2 (.inr (.inr ⟨hec, fun m hm => ?_, newNode, ?_, ?_⟩)),
      addLocal_near newNode v⟩
    · rcases (hends m).1 hm with rfl | rfl
      · exact .inl (h.old m hn)
      · exact .inr rfl
    · exact (hends newNode).2 (.inr rfl)
    · exact fun hold => hN (h.old newNode hold)

/-- The loop takes in the node at the other end of each edge, and the edge. -/
theorem expandFrom_spec (hn : n ∈ s.visibleLocality.nodes) : ∀ (fuel i : Nat) {v : View} {N : NodeRef → Prop}
    {P : EdgeRef → Prop}, Extended s v.panel N P → ∃ P' : EdgeRef → Prop,
      Extended s (v.expandFrom n fuel i).panel
          (fun m => N m ∨ ∃ k ∈ ((s.node n).edges.drop i).take fuel, m = s.getOtherEndpt k n) P' ∧
        (∀ k, P k → P' k) ∧ (∀ k, P' k → P k ∨ k ∈ ((s.node n).edges.drop i).take fuel) ∧
        (∀ k ∈ ((s.node n).edges.drop i).take fuel, k ∈ (v.expandFrom n fuel i).panel.visibleLocality.edges) ∧
        Near v (v.expandFrom n fuel i)
          (fun m => ∃ k ∈ ((s.node n).edges.drop i).take fuel, m = s.getOtherEndpt k n)
  | 0, i, v, N, P, h =>
    ⟨P, h.congr fun m => by simp, fun _ => id, fun _ => .inl, by simp, rfl, rfl, fun m => .inl⟩
  | fuel + 1, i, v, N, P, h => by
    have hu := h.shifted.unmoved
    cases he : (s.node n).edges[i]? with
    | none =>
      have hdrop : (s.node n).edges.drop i = [] := List.drop_eq_nil_of_le (List.getElem?_eq_none_iff.1 he)
      simp only [expandFrom, hu.node, he, hdrop]
      exact ⟨P, h.congr fun m => by simp, fun _ => id, fun _ => .inl, by simp, rfl, rfl, fun m => .inl⟩
    | some e =>
      obtain ⟨hi, hie⟩ := List.getElem?_eq_some_iff.1 he
      have hdrop : ((s.node n).edges.drop i).take (fuel + 1) = e :: ((s.node n).edges.drop (i + 1)).take fuel := by
        rw [List.drop_eq_getElem_cons hi, hie, List.take_succ_cons]
      obtain ⟨P₁, hext, hP₁, hP₁', hel, hnear⟩ := expandEdge_spec h hn (hie ▸ List.getElem_mem hi)
      obtain ⟨P₂, hrest, hP₂, hP₂', hall, hnear'⟩ := expandFrom_spec hn fuel (i + 1) hext
      simp only [expandFrom, hu.node, he, hdrop]
      refine ⟨P₂, hrest.congr fun m => ?_, fun k hk => hP₂ k (hP₁ k hk), fun k hk => ?_, fun k hk => ?_,
        (hnear.trans hnear').mono fun m hm => ?_⟩
      · rw [List.exists_mem_cons_iff, or_assoc]
      · rw [List.mem_cons]
        rcases hP₂' k hk with hk | hk
        · exact (hP₁' k hk).imp_right .inl
        · exact .inr (.inr hk)
      · rcases List.mem_cons.1 hk with rfl | hk
        · -- what has come stays
          refine (hrest.shifted.edges _).2 ?_
          rcases (hext.shifted.edges _).1 hel with hk | hk | ⟨hk, hin, hout⟩
          · exact .inl hk
          · exact .inr (.inl (hP₂ _ hk))
          · exact .inr (.inr ⟨hk, fun m hm => .inl (hin m hm), hout⟩)
        · exact hall k hk
      · rw [List.exists_mem_cons_iff]
        exact hm

/-- What an expanded node shows. -/
def Opened (v : View) (n m : NodeRef) : Prop :=
  m ∈ v.panel.visibleLocality.nodes ∨ ∃ k ∈ v.panel.completeEltSet.edges, v.panel.touches n k ∧ v.panel.touches m k

theorem opened_iff (hb : Browsed v.panel) (hn : n ∈ v.panel.visibleLocality.nodes) (m : NodeRef) :
    (m ∈ v.panel.visibleLocality.nodes ∨ ∃ k ∈ (v.panel.node n).edges, m = v.panel.getOtherEndpt k n) ↔ Opened v n m := by
  have hmem : ∀ k, k ∈ (v.panel.node n).edges ↔ k ∈ v.panel.completeEltSet.edges ∧ v.panel.touches n k := fun k =>
    hb.mem_vector (hb.nodes.2 n hn)
  constructor
  · rintro (hm | ⟨k, hk, rfl⟩)
    · exact .inl hm
    · obtain ⟨hkc, hkn⟩ := (hmem k).1 hk
      exact .inr ⟨k, hkc, hkn, (touches_iff hkn).2 (.inr rfl)⟩
  · rintro (hm | ⟨k, hkc, hkn, hkm⟩)
    · exact .inl hm
    · rcases (touches_iff hkn).1 hkm with rfl | rfl
      · exact .inl hn
      · exact .inr ⟨k, (hmem k).2 ⟨hkc, hkn⟩, rfl⟩

theorem expand_spec (h : Idle v) (hn : n ∈ v.panel.visibleLocality.nodes) :
    Idle (v.expandNode n) ∧ ∃ P, Extended v.panel (v.expandNode n).panel (Opened v n) P ∧
      (∀ k, P k → k ∈ v.panel.completeEltSet.edges ∧ v.panel.touches n k) ∧
      ∀ k ∈ v.panel.completeEltSet.edges, v.panel.touches n k → k ∈ (v.expandNode n).panel.visibleLocality.edges := by
  have hb := h.browsed
  have hnc := hb.nodes.2 n hn
  obtain ⟨P, hext, -, hP, hall, hnear⟩ := expandFrom_spec hn (3 * v.panel.edgeCount n) 0 hb.extended
  have htake : ((v.panel.node n).edges.drop 0).take (3 * v.panel.edgeCount n) = (v.panel.node n).edges := by
    rw [List.drop_zero, St.edgeCount]
    exact List.take_of_length_le (by omega)
  rw [htake] at hext hP hall hnear
  have hmem : ∀ k, k ∈ (v.panel.node n).edges ↔ k ∈ v.panel.completeEltSet.edges ∧ v.panel.touches n k := fun k =>
    hb.mem_vector hnc
  have hext := hext.congr (opened_iff hb hn)
  generalize hw : v.expandFrom n (3 * v.panel.edgeCount n) 0 = w at hext hall hnear
  have hexp : v.expandNode n = w.unmarkNewAdditions := by rw [expandNode, if_pos hnc, hw]
  rw [hexp]
  refine ⟨⟨hext.shifted.browsed, unmark_just w fun m hm => ?_, fun m => (congrFun hnear.marked m).trans (h.marked m)⟩,
    P, hext, fun k hk => (hmem k).1 ((hP k hk).resolve_left id), fun k hk hkn => hall k ((hmem k).2 ⟨hk, hkn⟩)⟩
  rcases hnear.just m hm with hj | ⟨k, hk, rfl⟩
  · rw [h.just m] at hj
    cases hj
  · exact (hext.shifted.nodes _).2 ((opened_iff hb hn _).1 (.inr ⟨k, hk, rfl⟩))

/-- **A node that is expanded shows all its edges, and the tag with the count of those it hides goes away.** -/
theorem expandNode_spec (h : Idle v) (hn : n ∈ v.panel.visibleLocality.nodes) :
    Idle (v.expandNode n) ∧ (v.expandNode n).panel.visibleEdgeCnt n = v.panel.edgeCount n ∧
      Shifted v.panel (v.expandNode n).panel (Opened v n) (fun k =>
        (k ∈ v.panel.completeEltSet.edges ∧ v.panel.touches n k) ∨ Shows v.panel (Opened v n) k) := by
  have hb := h.browsed
  obtain ⟨hidle, P, hext, hP, hall⟩ := expand_spec h hn
  have hu := hext.shifted.unmoved
  refine ⟨hidle, ?_, hidle.browsed, hu, hext.shifted.nodes, fun k => (hext.shifted.edges k).trans ?_⟩
  · have hcount := hidle.browsed.hiddenEdgeCount (n := n) (by rw [hu.complete]; exact hb.nodes.2 n hn)
    have hnil : ((v.expandNode n).panel.completeEltSet.edges.filter
        (· ∉ (v.expandNode n).panel.visibleLocality.edges)).flatMap ((v.expandNode n).panel.copies n) = [] := by
      refine List.flatMap_eq_nil_iff.2 fun k hk => St.copies_eq_nil.2 fun hkn => ?_
      obtain ⟨hkc, hout⟩ := List.mem_filter.1 hk
      rw [hu.complete] at hkc
      rw [decide_eq_true_eq] at hout
      exact hout (hall k hkc ((hu.touches n k).1 hkn))
    have hsame : (v.expandNode n).panel.edgeCount n = v.panel.edgeCount n := by rw [St.edgeCount, hu.node, St.edgeCount]
    rw [hnil, hsame] at hcount
    simp only [List.length_nil, Nat.cast_zero] at hcount
    omega
  · constructor
    · rintro (hk | hk | ⟨hk, hin, hout⟩)
      · exact .inr ⟨hb.edges.2 k hk, fun m hm => .inl (hb.ends k hk m hm), .inl hk⟩
      · exact .inl (hP k hk)
      · exact .inr ⟨hk, hin, .inr hout⟩
    · rintro (hk | ⟨hk, hin, hshown | hout⟩)
      · exact (hext.shifted.edges k).1 (hall k hk.1 hk.2)
      · exact .inl hshown
      · exact .inr (.inr ⟨hk, hin, hout⟩)

theorem expandNode_spec_chain :
    ((start chain none).expandNode 1).panel.visibleEdgeCnt 1 = ((start chain none).panel.edgeCount 1 : Int) :=
  (expandNode_spec (start_idle chain_reached none) (by decide +kernel)).2.1

/-- A node that has gone when its turn comes: its edge is shown, and it is not. -/
example : 1 ∈ (((start chain none).hideNode 0).expandNode 0).panel.visibleLocality.edges ∧
    0 ∉ (((start chain none).hideNode 0).expandNode 0).panel.visibleLocality.nodes := by
  decide +kernel

/-! ### `hideNode` and `collapseNode` -/

/-- An edge that is shown, and not one of `n`, joins `a` and `b`. -/
def JoinedWithout (s : St) (n a b : NodeRef) : Prop := ∃ k ∈ s.visibleLocality.edges, ¬s.touches n k ∧ s.joins k a b

/-- `K` is a component of what is shown without `n`, and no component has more nodes. -/
structure LargestWithout (s : St) (n : NodeRef) (K : List NodeRef) : Prop where
  nodup : K.Nodup
  component : ∃ c ∈ s.visibleLocality.nodes, c ≠ n ∧ ∀ m, m ∈ K ↔ Graph.Connected (JoinedWithout s n) c m
  largest : ∀ c ∈ s.visibleLocality.nodes, c ≠ n → ∀ l : List NodeRef, l.Nodup →
    (∀ m ∈ l, Graph.Connected (JoinedWithout s n) c m) → l.length ≤ K.length

/-- What `getLargestConnectedSubgraph` finds when `n` is gone, in the limits of its search. -/
theorem subgraph_spec (h : Browsed s) (hsmall : Small s s.visibleLocality) (hne : ∃ m ∈ s.visibleLocality.nodes, m ≠ n) :
    LargestWithout s n (subgraph (VisibleLocality.removeNode n s)) := by
  obtain ⟨-, hs⟩ := h.removeNode n
  generalize VisibleLocality.removeNode n s = t at hs
  have hu := hs.unmoved
  have hb := hs.browsed
  have hsub : t.visibleLocality.nodes ⊆ s.visibleLocality.nodes := fun m hm => ((hs.nodes m).1 hm).1
  have hsmall' : Small t t.visibleLocality := by
    refine ⟨((hb.nodes.1.subperm hsub).length_le).trans hsmall.nodes, fun m hm => ?_⟩
    rw [St.edgeCount, hu.node]
    exact hsmall.edges m (hsub hm)
  have hne' : t.visibleLocality.nodes ≠ [] := by
    obtain ⟨m, hm, hmn⟩ := hne
    exact List.ne_nil_of_mem ((hs.nodes m).2 ⟨hm, hmn⟩)
  have hjoined : GESUtils.Joined t t.visibleLocality = JoinedWithout s n := by
    funext a b
    refine propext (exists_congr fun k => ?_)
    rw [hs.edges, and_assoc, St.joins, St.joins, (hu.ends k).1, (hu.ends k).2]
  obtain ⟨sub, c, hc, heq, hnodup, hcomp, hmax⟩ := getLargestConnectedSubgraph_spec hb.traversable_local hsmall' hne'
  rw [hjoined] at hcomp hmax
  obtain ⟨hcs, hcn⟩ := (hs.nodes c).1 hc
  rw [subgraph, heq, Option.getD_some]
  refine ⟨hnodup, ⟨c, hcs, hcn, hcomp⟩, fun c' hc' hn' l hl hall => ?_⟩
  rw [List.length_map]
  exact hmax c' ((hs.nodes c').2 ⟨hc', hn'⟩) l hl hall

theorem LargestWithout.sub {K : List NodeRef} (h : LargestWithout s n K) (hb : Browsed s) :
    ∀ m ∈ K, m ∈ s.visibleLocality.nodes ∧ m ≠ n := by
  obtain ⟨c, hc, hcn, hK⟩ := h.component
  intro m hm
  have hconn := (hK m).1 hm
  clear hm
  induction hconn with
  | refl => exact ⟨hc, hcn⟩
  | tail _ hlast _ =>
    obtain ⟨k, hk, hkn, hj⟩ := hlast
    have ht := (St.joins_touches hj).2
    refine ⟨hb.ends k hk _ ht, ?_⟩
    rintro rfl
    exact hkn ht

/-- What is left when `n` is gone, and what is not connected with the rest. -/
def Remains (v : View) (n m : NodeRef) : Prop :=
  (m ∈ v.panel.visibleLocality.nodes ∧ m ≠ n) ∧ m ∈ subgraph (VisibleLocality.removeNode n v.panel)

theorem hide_spec (h : Idle v) (hn : n ∈ v.panel.completeEltSet.nodes) :
    Idle (v.hideNode n) ∧ (v.hideNode n).select = (if v.select = some n then none else v.select) ∧
      Dimmed v.panel (v.hideNode n).panel (fun m => m ≠ n ∧ m ∈ subgraph (VisibleLocality.removeNode n v.panel)) ∧
      Shifted v.panel (v.hideNode n).panel (Remains v n)
        (fun k => k ∈ v.panel.visibleLocality.edges ∧ ∀ m, v.panel.touches m k → Remains v n m) := by
  obtain ⟨hdim, hs⟩ := without_spec h.browsed n
  obtain ⟨hclear, hdim', hkeep⟩ := keep_spec
    (v := { v.removeNode n with select := if v.select = some n then none else v.select }) hs.browsed h.marked
    (subgraph (VisibleLocality.removeNode n v.panel))
  rw [hideNode, if_pos hn]
  refine ⟨⟨hkeep.browsed, h.just, hclear⟩, rfl, hdim.trans hs.unmoved hdim' hs.edges, hkeep.browsed,
    hs.unmoved.trans hkeep.unmoved, fun m => (hkeep.nodes m).trans (and_congr_left' (hs.nodes m)), fun k => ?_⟩
  have hedges : k ∈ (VisibleLocality.removeNode n v.panel).visibleLocality.edges ↔ _ := hs.edges k
  have htouch : ∀ m, (VisibleLocality.removeNode n v.panel).touches m k ↔ v.panel.touches m k := fun m =>
    hs.unmoved.touches m k
  refine (hkeep.edges k).trans ?_
  simp only [removeNode, hedges, htouch]
  constructor
  · rintro ⟨⟨hk, hne⟩, hall⟩
    exact ⟨hk, fun m hm => ⟨⟨h.browsed.ends k hk m hm, hne m hm⟩, hall m hm⟩⟩
  · rintro ⟨hk, hall⟩
    exact ⟨⟨hk, fun m hm => (hall m hm).1.2⟩, fun m hm => (hall m hm).2⟩

theorem collapse_spec (h : Idle v) (hn : n ∈ v.panel.completeEltSet.nodes) :
    Idle (v.collapseNode n) ∧
      Dimmed v.panel (v.collapseNode n).panel (fun m => m ≠ n ∧ m ∈ subgraph (VisibleLocality.removeNode n v.panel)) ∧
      Shifted v.panel (v.collapseNode n).panel (fun m => Remains v n m ∨ m = n)
        (fun k => (∀ m, v.panel.touches m k → Remains v n m ∨ m = n) ∧ (k ∈ v.panel.visibleLocality.edges ∨
          k ∈ v.panel.completeEltSet.edges ∧ v.panel.touches n k)) := by
  obtain ⟨hdim, hs⟩ := without_spec h.browsed n
  obtain ⟨hclear, hdim', hkeep⟩ := keepWith_spec (v := v.removeNode n) hs.browsed h.marked (n := n)
    (by rw [removeNode, hs.unmoved.complete]; exact hn) (fun hm => ((hs.nodes n).1 hm).2 rfl)
    (subgraph (VisibleLocality.removeNode n v.panel))
  have hnodes : ∀ m, m ∈ (VisibleLocality.removeNode n v.panel).visibleLocality.nodes ∧
      m ∈ subgraph (VisibleLocality.removeNode n v.panel) ∨ m = n ↔ Remains v n m ∨ m = n := fun m =>
    or_congr_left (and_congr_left' (hs.nodes m))
  rw [collapseNode, if_pos hn]
  refine ⟨⟨hkeep.browsed, h.just, hclear⟩, hdim.trans hs.unmoved hdim' hs.edges, hkeep.browsed,
    hs.unmoved.trans hkeep.unmoved, fun m => (hkeep.nodes m).trans (hnodes m), fun k => (hkeep.edges k).trans ?_⟩
  have hedges : k ∈ (VisibleLocality.removeNode n v.panel).visibleLocality.edges ↔ _ := hs.edges k
  simp only [removeNode, hnodes, hs.unmoved.touches, hs.unmoved.complete, hedges]
  refine and_congr_right fun _ => ⟨fun hk => hk.imp_left And.left, fun hk => ?_⟩
  by_cases hkn : v.panel.touches n k
  · exact .inr ⟨hk.elim (h.browsed.edges.2 k) And.left, hkn⟩
  · refine .inl ⟨hk.resolve_right fun hk => hkn hk.2, ?_⟩
    rintro m hm rfl
    exact hkn hm

theorem LargestWithout.remains (hb : Browsed v.panel)
    (h : LargestWithout v.panel n (subgraph (VisibleLocality.removeNode n v.panel))) :
    Remains v n = (· ∈ subgraph (VisibleLocality.removeNode n v.panel)) := by
  funext m
  exact propext ⟨And.right, fun hm => ⟨h.sub hb m hm, hm⟩⟩

/-- **`hideNode` leaves the largest component of what is shown without the node, and the edges in it.** -/
theorem hideNode_spec (h : Idle v) (hn : n ∈ v.panel.completeEltSet.nodes) (hsmall : Small v.panel v.panel.visibleLocality)
    (hne : ∃ m ∈ v.panel.visibleLocality.nodes, m ≠ n) :
    Idle (v.hideNode n) ∧ (v.hideNode n).select = (if v.select = some n then none else v.select) ∧
      ∃ K, LargestWithout v.panel n K ∧ Shifted v.panel (v.hideNode n).panel (· ∈ K)
        (fun k => k ∈ v.panel.visibleLocality.edges ∧ ∀ m, v.panel.touches m k → m ∈ K) := by
  have hK := subgraph_spec h.browsed hsmall hne
  obtain ⟨hidle, hselect, -, hs⟩ := hide_spec h hn
  rw [hK.remains h.browsed] at hs
  exact ⟨hidle, hselect, _, hK, hs⟩

theorem chain_small (select : Option NodeRef) :
    Small (start chain select).panel (start chain select).panel.visibleLocality := by
  rw [start_panel]
  exact ⟨by decide +kernel, by decide +kernel⟩

theorem hideNode_spec_chain : ∃ K, LargestWithout (start chain (some 0)).panel 0 K ∧
    ∀ m, m ∈ ((start chain (some 0)).hideNode 0).panel.visibleLocality.nodes ↔ m ∈ K :=
  let ⟨_, _, K, hK, hs⟩ := hideNode_spec (n := 0) (start_idle chain_reached (some 0)) (by decide +kernel) (chain_small _)
    ⟨1, by decide +kernel, by decide⟩
  ⟨K, hK, hs.nodes⟩

/-- **`collapseNode` does the same, and shows the node with its edges to what is left; these edges are
invisible from then on.** -/
theorem collapseNode_spec (h : Idle v) (hn : n ∈ v.panel.visibleLocality.nodes)
    (hsmall : Small v.panel v.panel.visibleLocality) (hne : ∃ m ∈ v.panel.visibleLocality.nodes, m ≠ n) :
    Idle (v.collapseNode n) ∧
      (∀ k ∈ v.panel.completeEltSet.edges, v.panel.touches n k → (v.collapseNode n).panel.isVisible k = false) ∧
      ∃ K, LargestWithout v.panel n K ∧ Shifted v.panel (v.collapseNode n).panel (fun m => m ∈ K ∨ m = n)
        (fun k => (∀ m, v.panel.touches m k → m ∈ K ∨ m = n) ∧ (k ∈ v.panel.visibleLocality.edges ∨
          k ∈ v.panel.completeEltSet.edges ∧ v.panel.touches n k)) := by
  have hK := subgraph_spec h.browsed hsmall hne
  obtain ⟨hidle, hdim, hs⟩ := collapse_spec h (h.browsed.nodes.2 n hn)
  rw [hK.remains h.browsed] at hs
  refine ⟨hidle, fun k hk hkn => Bool.eq_false_iff.2 fun hvis => ?_, _, hK, hs⟩
  obtain ⟨hon, hends⟩ := (hdim k).1 hvis
  have hkl : k ∈ v.panel.visibleLocality.edges := by
    by_contra hkl
    rw [h.browsed.hidden k hk hkl] at hon
    cases hon
  exact (hends hkl n hkn).1 rfl

theorem collapseNode_spec_chain : ∃ K, LargestWithout (start chain none).panel 1 K ∧
    ∀ m, m ∈ ((start chain none).collapseNode 1).panel.visibleLocality.nodes ↔ m ∈ K ∨ m = 1 :=
  let ⟨_, _, K, hK, hs⟩ := collapseNode_spec (n := 1) (start_idle chain_reached none) (by decide +kernel) (chain_small _)
    ⟨0, by decide +kernel, by decide⟩
  ⟨K, hK, hs.nodes⟩

/-- One of the two ends is left. -/
example : ((start chain none).collapseNode 1).panel.visibleLocality.nodes = [0, 1] ∧
    ((start chain none).collapseNode 1).panel.visibleLocality.edges = [1] := by
  decide +kernel

end View

end Topo
