import Awds.Topo.Calls

/-!
# One graph in two element sets

The panel keeps its graph five times over: in the locality, in `completeEltSet`, in two registries, in the
edge vectors and in `visibleEdgeCnt`. `Kept` ties the first four together, whatever ends `out` of the graph
some edges may have; `Counted` is about `visibleEdgeCnt`. Both hold after any calls that hide nothing.
-/

namespace Topo

open TGPanel

variable {s s' t : St} {n m f : NodeRef} {e k : EdgeRef} {out : NodeRef → Prop} {c : Call}

/-! ## The registry -/

/-- The registry maps the IDs of the nodes, and every node has one. -/
structure Registered (s : St) : Prop where
  findNode : ∀ id n, s.completeEltSet.findNode id = some n ↔ n ∈ s.completeEltSet.nodes ∧ (s.node n).id = some id
  id : ∀ n ∈ s.completeEltSet.nodes, ∃ id, (s.node n).id = some id

theorem lookup_filter_ne {β : Type*} (l : List (String × β)) (id k : String) :
    (l.filter (·.1 ≠ id)).lookup k = if k = id then none else l.lookup k := by
  induction l with
  | nil => simp
  | cons a l ih =>
    obtain ⟨i, v⟩ := a
    by_cases hi : i = id
    · subst hi
      rw [List.filter_cons_of_neg (by simp), ih, List.lookup_cons]
      by_cases hk : k = i
      · rw [if_pos hk, if_pos hk]
      · have hb : (k == i) = false := by simpa using hk
        simp [hk, hb]
    · rw [List.filter_cons_of_pos (by simpa using hi), List.lookup_cons, List.lookup_cons, ih]
      by_cases hk : k = i
      · subst hk; simp [hi]
      · have hb : (k == i) = false := by simpa using hk
        simp [hb]

namespace GraphEltSet

theorem findNode_put (g : GraphEltSet) (id k : String) (n : NodeRef) :
    (g.put id n).findNode k = if k = id then some n else g.findNode k := by
  rw [findNode, put, List.lookup_cons, lookup_filter_ne]
  by_cases hk : k = id
  · subst hk; simp
  · have hb : (k == id) = false := by simpa using hk
    simp [hb, hk, findNode]

theorem findNode_drop {g : GraphEltSet} {v : Node} {id : String} (hid : v.id = some id) (n : NodeRef) (k : String) :
    (g.drop n v).findNode k = if k = id then none else g.findNode k := by
  rw [findNode, drop, hid]
  exact lookup_filter_ne _ id k

end GraphEltSet

theorem Registered.congr (h : Registered s) (hnodes : s'.completeEltSet.nodes = s.completeEltSet.nodes)
    (hreg : s'.completeEltSet.nodeIDRegistry = s.completeEltSet.nodeIDRegistry)
    (hid : ∀ n ∈ s.completeEltSet.nodes, (s'.node n).id = (s.node n).id) : Registered s' := by
  constructor
  · intro id n
    have hf : s'.completeEltSet.findNode id = s.completeEltSet.findNode id := by
      rw [GraphEltSet.findNode, hreg]; rfl
    rw [hf, h.findNode, hnodes]
    exact and_congr_right fun hn => by rw [hid n hn]
  · rw [hnodes]
    exact fun n hn => by rw [hid n hn]; exact h.id n hn

/-- A free ID is given to a node that is not in the graph. -/
theorem Registered.put {id : String} (h : Registered s) (hn : n ∉ s.completeEltSet.nodes) (hid : (s.node n).id = some id)
    (hfree : s.completeEltSet.findNode id = none) (hnode : s'.node = s.node)
    (hcomp : s'.completeEltSet = s.completeEltSet.put id n) : Registered s' := by
  have hmem : ∀ m, m ∈ s'.completeEltSet.nodes ↔ m ∈ s.completeEltSet.nodes ∨ m = n := fun m => by
    rw [hcomp]; simp [GraphEltSet.put]
  constructor
  · intro k m
    rw [hmem, hcomp, GraphEltSet.findNode_put, hnode]
    by_cases hk : k = id
    · subst hk
      rw [if_pos rfl]
      constructor
      · intro hm
        obtain rfl : n = m := by simpa using hm
        exact ⟨.inr rfl, hid⟩
      · rintro ⟨hm | rfl, hmid⟩
        · have := (h.findNode k m).2 ⟨hm, hmid⟩
          rw [hfree] at this
          cases this
        · rfl
    · rw [if_neg hk, h.findNode]
      constructor
      · exact fun hm => ⟨.inl hm.1, hm.2⟩
      · rintro ⟨hm | rfl, hmid⟩
        · exact ⟨hm, hmid⟩
        · rw [hid] at hmid
          exact absurd (Option.some.inj hmid).symm hk
  · intro m hm
    rw [hnode]
    rcases (hmem m).1 hm with hm | rfl
    · exact h.id m hm
    · exact ⟨id, hid⟩

theorem Registered.drop (h : Registered s) (hnd : s.completeEltSet.nodes.Nodup) (hn : n ∈ s.completeEltSet.nodes)
    (hnodes : s'.completeEltSet.nodes = s.completeEltSet.nodes.erase n)
    (hreg : s'.completeEltSet.nodeIDRegistry = (s.completeEltSet.drop n (s.node n)).nodeIDRegistry)
    (hid : ∀ n, (s'.node n).id = (s.node n).id) : Registered s' := by
  obtain ⟨id, hni⟩ := h.id n hn
  have hfind : ∀ k, s'.completeEltSet.findNode k = if k = id then none else s.completeEltSet.findNode k := fun k => by
    rw [← GraphEltSet.findNode_drop hni n k, GraphEltSet.findNode, hreg]; rfl
  constructor
  · intro k m
    rw [hfind, hnodes, hnd.mem_erase_iff, hid]
    by_cases hk : k = id
    · subst hk
      rw [if_pos rfl]
      constructor
      · intro hm; cases hm
      · rintro ⟨⟨hmn, hm⟩, hmid⟩
        -- the ID of `n` is the ID of no other node
        have hfm := (h.findNode k m).2 ⟨hm, hmid⟩
        have hfn := (h.findNode k n).2 ⟨hn, hni⟩
        exact absurd (Option.some.inj (hfm.symm.trans hfn)) hmn
    · rw [if_neg hk, h.findNode]
      constructor
      · rintro ⟨hm, hmid⟩
        refine ⟨⟨?_, hm⟩, hmid⟩
        rintro rfl
        rw [hni] at hmid
        exact hk (Option.some.inj hmid).symm
      · exact fun hm => ⟨hm.1.2, hm.2⟩
  · intro m hm
    rw [hnodes] at hm
    rw [hid]
    exact h.id m (List.mem_of_mem_erase hm)

/-! ## Both sets -/

/-- The locality is the graph, lists and registry. -/
structure Kept (out : NodeRef → Prop) (s : St) : Prop where
  shape : ShapeBut out s
  same : s.visibleLocality = s.completeEltSet
  registered : Registered s

theorem Kept.synced (h : Kept out s) : Synced s := by rw [Synced, h.same]

theorem Kept.newNode (h : Kept out s) (id lbl : Option String) : Kept out (newNode id lbl s) := by
  refine ⟨h.shape.newNode id lbl, h.same, h.registered.congr rfl rfl fun n hn => ?_⟩
  simp [Topo.newNode, Nat.ne_of_lt (h.shape.nodes n hn).1]

theorem Kept.newEdge (h : Kept out s) (f t : NodeRef) (visible : Bool) : Kept out (newEdge f t visible s) :=
  ⟨h.shape.newEdge f t visible, h.same, h.registered.congr rfl rfl fun _ _ => rfl⟩

/-- A new ID lets the node into both sets, another one throws. -/
theorem Kept.addNode_eq {id : String} (h : Kept out s) (hn : n ∉ s.completeEltSet.nodes) (hid : (s.node n).id = some id) :
    VisibleLocality.addNode n s = if (s.completeEltSet.findNode id).isNone then
      ({ s with visibleLocality := s.completeEltSet.put id n, completeEltSet := s.completeEltSet.put id n }, none)
    else (s, some (.nodeExists ("node ID '" ++ id ++ "' already exists."))) := by
  have hset : (s.setNode n fun v => { v with id := some id }) = s := by
    have hv : ({ s.node n with id := some id } : Node) = s.node n := by rw [← hid]
    rw [St.setNode, hv, Function.update_eq_self]
  have hn' : n ∉ s.visibleLocality.nodes := h.same ▸ hn
  unfold VisibleLocality.addNode
  rw [if_neg hn', h.same]
  by_cases hfree : (s.completeEltSet.findNode id).isNone = true
  · simp only [GraphEltSet.addNode, hid, hfree, if_true, hset]
    rw [if_neg hn]
  · simp [GraphEltSet.addNode, hid, hfree]

theorem Kept.addNode (h : Kept out s) (hf : Fresh s n) (hid : ∃ id, (s.node n).id = some id)
    (hno : ∀ e ∈ s.completeEltSet.edges, ¬s.touches n e) : Kept out (VisibleLocality.addNode n s).1 := by
  obtain ⟨id, hid⟩ := hid
  have hs := (VisibleLocality.addNode_joined n s).shapeBut h.shape hf hno
  rw [h.addNode_eq hf.2.1 hid] at hs ⊢
  by_cases hfree : s.completeEltSet.findNode id = none
  · rw [if_pos (by rw [hfree]; rfl)] at hs ⊢
    exact ⟨hs, rfl, h.registered.put hf.2.1 hid hfree rfl rfl⟩
  · rwa [if_neg (by simpa using hfree)] at hs ⊢

@[simp] theorem Node.removeEdge_id (n m : NodeRef) (e : EdgeRef) (s : St) :
    ((Node.removeEdge n e s).node m).id = (s.node m).id ∧ ((Node.removeEdge n e s).node m).lbl = (s.node m).lbl := by
  rw [removeEdge_eq]
  by_cases hm : m = n
  · subst hm; simp
  · simp [hm]

@[simp] theorem Node.removeEdge_degree (n : NodeRef) (e : EdgeRef) (s : St) :
    (Node.removeEdge n e s).visibleEdgeCnt = s.visibleEdgeCnt := by rw [removeEdge_eq]

theorem GraphEltSet.deleteEdge_id (e : EdgeRef) (s : St) :
    (∀ n, ((deleteEdge e s).node n).id = (s.node n).id ∧ ((deleteEdge e s).node n).lbl = (s.node n).lbl) ∧
      (deleteEdge e s).visibleEdgeCnt = s.visibleEdgeCnt := by
  unfold deleteEdge
  split
  · refine ⟨fun n => ?_, ?_⟩ <;> simp [St.setCompleteEdges]
  · exact ⟨fun _ => ⟨rfl, rfl⟩, rfl⟩

theorem Kept.deleteEdge (h : Kept out s) (e : EdgeRef) : Kept out (VisibleLocality.deleteEdge (some e) s) := by
  obtain ⟨hcomp, hloc, -⟩ := VisibleLocality.deleteEdge_edges s e
  refine ⟨h.shape.localDeleteEdge e, by rw [hcomp, hloc, h.same], h.registered.congr (by rw [hcomp]) (by rw [hcomp])
    fun n _ => ?_⟩
  rw [VisibleLocality.deleteEdge, ((GraphEltSet.deleteEdge_id e _).1 n).1, (VisibleLocality.removeEdge_frame s e).1]

/-- An edge that is in the graph is not added again, another one comes to both sets. -/
theorem Kept.addEdge (h : Kept out s) (he : e < s.edgesMade)
    (hends : ∀ m, s.touches m e → m < s.nodesMade ∧ (m ∈ s.completeEltSet.nodes ∨ out m)) :
    Kept out (VisibleLocality.addEdge e s) := by
  by_cases hc : e ∈ s.completeEltSet.edges
  · rwa [VisibleLocality.addEdge, if_pos (by rw [h.same]; exact hc)]
  · have ha := VisibleLocality.addEdge_added hc (by rw [h.same]; exact hc)
    refine ⟨ha.shape h.shape he hc hends, by rw [ha.locality, ha.complete, h.same],
      h.registered.congr (by rw [ha.complete]) (by rw [ha.complete]) fun n _ => (ha.id n).1⟩

theorem Kept.addNew (h : Kept out s) (visible : Bool) {f t : NodeRef}
    (hf : f < s.nodesMade ∧ (f ∈ s.completeEltSet.nodes ∨ out f))
    (ht : t < s.nodesMade ∧ (t ∈ s.completeEltSet.nodes ∨ out t)) :
    Kept out (VisibleLocality.addEdge s.edgesMade (Topo.newEdge f t visible s)) := by
  refine (h.newEdge f t visible).addEdge (Nat.lt_succ_self _) fun m hm => ?_
  have hm : f = m ∨ t = m := by simpa [St.touches, Topo.newEdge] using hm
  rcases hm with rfl | rfl
  · exact hf
  · exact ht

theorem Kept.mono {out' : NodeRef → Prop} (h : Kept out s) (hsub : ∀ n, out n → out' n) : Kept out' s :=
  ⟨{ h.shape with edges := fun e he => ⟨(h.shape.edges e he).1, fun n hn => ((h.shape.edges e he).2 n hn).imp_right (hsub n)⟩ },
    h.same, h.registered⟩

/-! ### What `updatePartitions` leaves alone -/

/-- The edges that are not `updatePartitions`' own. -/
def St.shown (s : St) : List EdgeRef := s.completeEltSet.edges.filter s.isVisible

theorem St.mem_shown : e ∈ s.shown ↔ e ∈ s.completeEltSet.edges ∧ s.isVisible e = true := List.mem_filter

/-- The graph is the same but for invisible edges. -/
structure Redrawn (out : NodeRef → Prop) (s s' : St) : Prop where
  kept : Kept out s'
  nodes : s'.completeEltSet.nodes = s.completeEltSet.nodes
  registry : s'.completeEltSet.nodeIDRegistry = s.completeEltSet.nodeIDRegistry
  id : ∀ n, (s'.node n).id = (s.node n).id ∧ (s'.node n).lbl = (s.node n).lbl
  nodesMade : s'.nodesMade = s.nodesMade
  edgesMade : s.edgesMade ≤ s'.edgesMade
  shown : s'.shown = s.shown
  edge : ∀ e ∈ s.shown, s'.edge e = s.edge e

theorem Kept.redrawn (h : Kept out s) : Redrawn out s s :=
  ⟨h, rfl, rfl, fun _ => ⟨rfl, rfl⟩, rfl, Nat.le_refl _, rfl, fun _ _ => rfl⟩

theorem VisibleLocality.deleteEdge_edge (hk : k ≠ e) (s : St) : (deleteEdge (some e) s).edge k = s.edge k := by
  rw [deleteEdge, (GraphEltSet.deleteEdge_frame e _).1, removeEdge]
  split
  · simp [St.setLocalEdges, hk]
  · rfl

theorem VisibleLocality.deleteEdge_nodesMade (e : EdgeRef) (s : St) : (deleteEdge (some e) s).nodesMade = s.nodesMade := by
  rw [deleteEdge, (GraphEltSet.deleteEdge_frame e _).2.1, (removeEdge_frame s e).2.1]

theorem Kept.shown_deleteEdge (h : Kept out s) (e : EdgeRef) :
    (VisibleLocality.deleteEdge (some e) s).shown = s.shown.erase e := by
  have hnd : s.shown.Nodup := h.shape.nodupEdges.filter _
  rw [hnd.erase_eq_filter, St.shown, (VisibleLocality.deleteEdge_edges s e).1]
  dsimp only
  rw [h.shape.nodupEdges.erase_eq_filter, List.filter_filter, St.shown, List.filter_filter]
  refine List.filter_congr fun k _ => ?_
  by_cases hke : k = e
  · subst hke; simp
  · rw [St.isVisible, VisibleLocality.deleteEdge_edge hke, Bool.and_comm]
    rfl

theorem Redrawn.deleteEdge (h : Redrawn out s t) (hv : t.isVisible e = false) :
    Redrawn out s (VisibleLocality.deleteEdge (some e) t) := by
  obtain ⟨hcomp, -, -⟩ := VisibleLocality.deleteEdge_edges t e
  obtain ⟨hnode, -, hemade, -, -, -⟩ := VisibleLocality.removeEdge_frame t e
  obtain ⟨-, -, hemade', -, -⟩ := GraphEltSet.deleteEdge_frame e (VisibleLocality.removeEdge t e)
  have hid := (GraphEltSet.deleteEdge_id e (VisibleLocality.removeEdge t e)).1
  refine ⟨h.kept.deleteEdge e, by rw [hcomp]; exact h.nodes, by rw [hcomp]; exact h.registry, fun n => ?_,
    (VisibleLocality.deleteEdge_nodesMade e t).trans h.nodesMade, ?_, ?_, fun k hk => ?_⟩
  · rw [VisibleLocality.deleteEdge, (hid n).1, (hid n).2, hnode]
    exact h.id n
  · rw [VisibleLocality.deleteEdge, hemade', hemade]
    exact h.edgesMade
  · rw [h.kept.shown_deleteEdge, h.shown]
    refine List.erase_of_not_mem fun he => ?_
    rw [← h.shown, St.mem_shown, hv] at he
    exact Bool.false_ne_true he.2
  · rw [VisibleLocality.deleteEdge_edge ?_ t]
    · exact h.edge k hk
    · rintro rfl
      rw [← h.shown] at hk
      rw [(St.mem_shown.1 hk).2] at hv
      cases hv

/-- A new edge, visible or not. -/
structure AddedNew (f t : NodeRef) (visible : Bool) (s s' : St) : Prop where
  nodes : s'.completeEltSet.nodes = s.completeEltSet.nodes
  registry : s'.completeEltSet.nodeIDRegistry = s.completeEltSet.nodeIDRegistry
  id : ∀ n, (s'.node n).id = (s.node n).id ∧ (s'.node n).lbl = (s.node n).lbl
  nodesMade : s'.nodesMade = s.nodesMade
  edgesMade : s'.edgesMade = s.edgesMade + 1
  shown : s'.shown = s.shown ++ if visible then [s.edgesMade] else []
  edge : ∀ e, s'.edge e = if e = s.edgesMade then ⟨f, t, visible⟩ else s.edge e

theorem Kept.addNew_eq (h : Kept out s) (f t : NodeRef) (visible : Bool) :
    AddedNew f t visible s (VisibleLocality.addEdge s.edgesMade (Topo.newEdge f t visible s)) := by
  have hnew : s.edgesMade ∉ s.completeEltSet.edges := fun he => Nat.lt_irrefl _ (h.shape.edges _ he).1
  have ha := VisibleLocality.addEdge_added (s := Topo.newEdge f t visible s) (e := s.edgesMade) hnew
    (fun he => hnew (h.same ▸ he))
  have hedge : ∀ e, (VisibleLocality.addEdge s.edgesMade (Topo.newEdge f t visible s)).edge e =
      if e = s.edgesMade then ⟨f, t, visible⟩ else s.edge e := fun e => by
    rw [ha.edge, Topo.newEdge]
    exact Function.update_apply ..
  refine ⟨by rw [ha.complete]; rfl, by rw [ha.complete]; rfl, ha.id, ha.nodesMade, ha.edgesMade, ?_, hedge⟩
  rw [St.shown, ha.complete, List.filter_append]
  congr 1
  · refine List.filter_congr fun k hk => ?_
    have hk : k < s.edgesMade := (h.shape.edges k hk).1
    rw [St.isVisible, hedge, if_neg (Nat.ne_of_lt hk)]
    rfl
  · have hv : (VisibleLocality.addEdge s.edgesMade (Topo.newEdge f t visible s)).isVisible s.edgesMade = visible := by
      rw [St.isVisible, hedge, if_pos rfl]
    cases visible with
    | true => simp [hv]
    | false => simp [hv]

theorem Redrawn.addInvisible {a b : NodeRef} (h : Redrawn out s t) (ha : a ∈ t.completeEltSet.nodes)
    (hb : b ∈ t.completeEltSet.nodes) :
    Redrawn out s (VisibleLocality.addEdge t.edgesMade (Topo.newEdge a b false t)) := by
  have hn := h.kept.addNew_eq a b false
  refine ⟨h.kept.addNew false ⟨(h.kept.shape.nodes a ha).1, .inl ha⟩ ⟨(h.kept.shape.nodes b hb).1, .inl hb⟩,
    hn.nodes.trans h.nodes, hn.registry.trans h.registry, fun n => ?_, hn.nodesMade.trans h.nodesMade, ?_, ?_,
    fun k hk => ?_⟩
  · rw [(hn.id n).1, (hn.id n).2]
    exact h.id n
  · rw [hn.edgesMade]
    exact Nat.le_succ_of_le h.edgesMade
  · rw [hn.shown, h.shown]
    simp
  · have hmem := (St.mem_shown.1 (h.shown ▸ hk : k ∈ t.shown)).1
    rw [hn.edge, if_neg (Nat.ne_of_lt (h.kept.shape.edges k hmem).1)]
    exact h.edge k hk

theorem Kept.redraw (h : Kept out s) : Redrawn out s (TGPanel.updatePartitions s) :=
  updatePartitions_rule (I := Redrawn out s) (fun _ h => h.kept.shape.nodupEdges) (fun _ _ h _ hv => h.deleteEdge hv)
    (fun _ _ _ h ha hb => h.addInvisible ha hb) h.redrawn

theorem Redrawn.findNode (h : Redrawn out s s') (id : String) :
    s'.completeEltSet.findNode id = s.completeEltSet.findNode id := by
  rw [GraphEltSet.findNode, h.registry]
  rfl

theorem Kept.findNode_lt {id : String} (h : Kept out s) : ∀ n ∈ s.completeEltSet.findNode id, n < s.nodesMade :=
  fun n hn => (h.shape.nodes n ((h.registered.findNode id n).1 hn).1).1

/-! ### `visibleEdgeCnt` -/

/-- `visibleEdgeCnt` of the nodes `P` counts the ends of the edges of the locality. -/
def CountedOn (P : NodeRef → Prop) (s : St) : Prop :=
  ∀ m, P m → s.visibleEdgeCnt m = (s.visibleLocality.edges.flatMap (s.copies m)).length

theorem length_flatMap_erase {α β : Type*} [DecidableEq α] {l : List α} {a : α} (c : α → List β) (ha : a ∈ l) :
    ((l.erase a).flatMap c).length + (c a).length = (l.flatMap c).length := by
  have hp := ((List.perm_cons_erase ha).flatMap_right c).length_eq
  rw [List.flatMap_cons, List.length_append] at hp
  omega

theorem CountedOn.removeEdge {P : NodeRef → Prop} (h : CountedOn P s) (e : EdgeRef) :
    CountedOn P (VisibleLocality.removeEdge s e) := by
  intro m hm
  have hc := copies_congr (VisibleLocality.removeEdge_ends s e) m
  rw [hc, (VisibleLocality.removeEdge_frame s e).2.2.2.2.2]
  by_cases he : e ∈ s.visibleLocality.edges
  · have hlen := length_flatMap_erase (s.copies m) he
    have hcnt := h m hm
    have hdeg : (VisibleLocality.removeEdge s e).visibleEdgeCnt m = s.visibleEdgeCnt m + (s.copies m e).length * -1 := by
      rw [← hc, VisibleLocality.removeEdge, if_pos he, St.countEdge_degree]
      rfl
    dsimp only
    omega
  · rw [VisibleLocality.removeEdge, if_neg he, List.erase_of_not_mem he]
    exact h m hm

theorem CountedOn.removeNode {P : NodeRef → Prop} (h : CountedOn P s) (n : NodeRef) :
    CountedOn P (VisibleLocality.removeNode n s) := by
  have hfold : ∀ (es : List EdgeRef) (s : St), CountedOn P s → CountedOn P (es.foldl VisibleLocality.removeEdge s) := by
    intro es
    induction es with
    | nil => exact fun _ h => h
    | cons e es ih => exact fun s h => ih _ (h.removeEdge e)
  unfold VisibleLocality.removeNode
  split
  · exact hfold _ _ h
  · exact h

theorem CountedOn.deleteEdge {P : NodeRef → Prop} (h : CountedOn P s) (e : EdgeRef) :
    CountedOn P (VisibleLocality.deleteEdge (some e) s) := by
  obtain ⟨hedge, -, -, hloc, -⟩ := GraphEltSet.deleteEdge_frame e (VisibleLocality.removeEdge s e)
  intro m hm
  have hc : (VisibleLocality.deleteEdge (some e) s).copies m = (VisibleLocality.removeEdge s e).copies m :=
    copies_congr (fun k => by rw [VisibleLocality.deleteEdge, hedge]; exact ⟨rfl, rfl⟩) m
  rw [hc, VisibleLocality.deleteEdge, hloc, (GraphEltSet.deleteEdge_id e _).2]
  exact h.removeEdge e m hm

theorem CountedOn.added {P : NodeRef → Prop} (h : CountedOn P s) (ha : Added e s s') : CountedOn P s' := by
  intro m hm
  have hc : s'.copies m = s.copies m := copies_congr (fun k => by rw [ha.edge]; exact ⟨rfl, rfl⟩) m
  rw [hc, ha.degree, ha.locality, h m hm, List.flatMap_append, List.length_append]
  simp

/-! ### Deleting a node -/

/-- The loop of `deleteNode n` has come from `s` to `t`. -/
structure Taking (n : NodeRef) (s t : St) : Prop where
  edge : t.edge = s.edge
  nodesMade : t.nodesMade = s.nodesMade
  edgesMade : t.edgesMade = s.edgesMade
  locality : t.visibleLocality = s.visibleLocality
  degree : t.visibleEdgeCnt = s.visibleEdgeCnt
  complete : t.completeEltSet.nodes = s.completeEltSet.nodes ∧
    t.completeEltSet.nodeIDRegistry = s.completeEltSet.nodeIDRegistry
  edges : t.completeEltSet.edges.filter (fun k => !decide (s.touches n k)) =
    s.completeEltSet.edges.filter fun k => !decide (s.touches n k)
  sub : ∀ k ∈ t.completeEltSet.edges, k ∈ s.completeEltSet.edges
  id : ∀ m, (t.node m).id = (s.node m).id ∧ (t.node m).lbl = (s.node m).lbl
  untouched : ∀ m, (∀ k ∈ s.completeEltSet.edges, ¬s.touches m k) → (t.node m).edges = (s.node m).edges

theorem Taking.unlink {done : List EdgeRef} (h : Taking n s t) (hu : Unlinking out n done t)
    (he : e ∈ t.completeEltSet.edges) (ht : t.touches n e) : Taking n s (GraphEltSet.unlink n e t) := by
  obtain ⟨hedge, hmade, hemade, hloc, hcomp⟩ := GraphEltSet.unlink_frame ht
  obtain ⟨m, hm, -, -, heq⟩ := GraphEltSet.unlink_eq ht
  have hends : ∀ m k, t.touches m k ↔ s.touches m k := fun m k => by simp only [St.touches, h.edge]
  refine ⟨hedge.trans h.edge, hmade.trans h.nodesMade, hemade.trans h.edgesMade, hloc.trans h.locality,
    by rw [heq, Node.removeEdge_degree]; exact h.degree, by rw [hcomp]; exact h.complete, ?_, fun k hk => ?_,
    fun m' => ?_, fun m' hm' => ?_⟩
  · rw [hcomp, ← h.edges, hu.shape.nodupEdges.erase_eq_filter, List.filter_filter]
    refine List.filter_congr fun k _ => ?_
    by_cases hke : k = e
    · subst hke; simp [(hends n k).1 ht]
    · simp [hke]
  · rw [hcomp] at hk
    exact h.sub k (List.mem_of_mem_erase hk)
  · rw [heq, (Node.removeEdge_id ..).1, (Node.removeEdge_id ..).2]
    exact h.id m'
  · rw [heq, Node.removeEdge_edges, if_neg]
    · exact h.untouched m' hm'
    · rintro rfl
      exact hm' e (h.sub e he) ((hends m' e).1 hm)

/-- The node `n` of the graph is deleted. -/
structure Deleted (out : NodeRef → Prop) (n : NodeRef) (s s' : St) : Prop where
  kept : Kept out s'
  nodesMade : s'.nodesMade = s.nodesMade
  nodes : s'.completeEltSet.nodes = s.completeEltSet.nodes.erase n
  edges : s'.completeEltSet.edges = s.completeEltSet.edges.filter fun k => !decide (s.touches n k)
  visible : ∀ k ∈ s'.completeEltSet.edges, s'.isVisible k = s.isVisible k
  edge : ∀ k, (s'.edge k).getFrom = (s.edge k).getFrom ∧ (s'.edge k).getTo = (s.edge k).getTo
  id : ∀ m, (s'.node m).id = (s.node m).id ∧ (s'.node m).lbl = (s.node m).lbl
  untouched : ∀ m, (∀ k ∈ s.completeEltSet.edges, ¬s.touches m k) → (s'.node m).edges = (s.node m).edges
  counted : ∀ P, CountedOn P s → CountedOn P s'

theorem Deleted.shown (h : Deleted out n s s') : s'.shown = s.shown.filter fun k => !decide (s.touches n k) := by
  rw [St.shown, List.filter_congr h.visible, h.edges, St.shown, List.filter_comm]

theorem Kept.deleteNode (h : Kept out s) (hn : n ∈ s.completeEltSet.nodes) :
    Deleted out n s (VisibleLocality.deleteNode (some n) s) := by
  have hnl : n ∈ s.visibleLocality.nodes := h.same ▸ hn
  have hh : Hidden n s (VisibleLocality.removeNode n s) := h.shape.removeNode h.synced n
    (fun k hk => (h.shape.mem_vector hn).trans (and_iff_right hk)) fun hl => absurd hnl hl
  have hreg : (VisibleLocality.removeNode n s).visibleLocality.nodeIDRegistry =
      (s.completeEltSet.drop n (s.node n)).nodeIDRegistry := by
    rw [VisibleLocality.removeNode, if_pos hnl, (VisibleLocality.foldl_removeEdge _ _).2.2.2.2.2.1, h.same]
  have hcnt : ∀ P, CountedOn P s → CountedOn P (VisibleLocality.removeNode n s) := fun _ hp => hp.removeNode n
  rw [VisibleLocality.deleteNode]
  generalize VisibleLocality.removeNode n s = u at *
  obtain ⟨hs, hnone, hd⟩ := hh.deleteNode_rule h.shape hn
    (P := Taking n { u with completeEltSet := u.completeEltSet.drop n (u.node n) })
    (fun done t e hu he ht hp => hp.unlink hu he ht)
    ⟨rfl, rfl, rfl, rfl, rfl, ⟨rfl, rfl⟩, rfl, fun _ hk => hk, fun _ => ⟨rfl, rfl⟩, fun _ _ => rfl⟩
  generalize GraphEltSet.deleteNode n u = s' at *
  have htu : ∀ m k, u.touches m k ↔ s.touches m k := fun m k => touches_congr hh.edge
  have hts : ∀ m k, s'.touches m k ↔ s.touches m k := fun m k => by
    rw [← htu]; simp only [St.touches, hd.edge]
  have hedges : s'.completeEltSet.edges = s.completeEltSet.edges.filter fun k => !decide (s.touches n k) := by
    have hall : s'.completeEltSet.edges.filter (fun k => !decide (s.touches n k)) = s'.completeEltSet.edges :=
      List.filter_eq_self.2 fun k hk => by simpa using fun ht => hnone k hk ((hts n k).2 ht)
    have hf : ∀ l : List EdgeRef, l.filter (fun k => !decide (u.touches n k)) =
        l.filter fun k => !decide (s.touches n k) := fun l =>
      List.filter_congr fun k _ => by rw [decide_eq_decide.2 (htu n k)]
    rw [← hall, ← hf, ← hf, ← hh.complete]
    exact hd.edges
  have hnodes : s'.completeEltSet.nodes = s.completeEltSet.nodes.erase n := by
    rw [hd.complete.1, hh.complete]; rfl
  have hregs : s'.completeEltSet.nodeIDRegistry = (s.completeEltSet.drop n (s.node n)).nodeIDRegistry := by
    rw [hd.complete.2, hh.complete, hh.node]
  have hid : ∀ m, (s'.node m).id = (s.node m).id ∧ (s'.node m).lbl = (s.node m).lbl := fun m => by
    rw [(hd.id m).1, (hd.id m).2]
    exact ⟨congrArg Node.id (congrFun hh.node m), congrArg Node.lbl (congrFun hh.node m)⟩
  refine ⟨⟨hs, ?_, h.registered.drop h.shape.nodup.1 hn hnodes hregs fun m => (hid m).1⟩,
    hd.nodesMade.trans hh.nodesMade, hnodes, hedges, fun k hk => ?_, fun k => by rw [hd.edge]; exact hh.edge k, hid,
    fun m hm => ?_, fun P hp => ?_⟩
  · rw [hd.locality]
    have hl : u.visibleLocality = ⟨s.completeEltSet.nodes.erase n,
        s.completeEltSet.edges.filter fun k => !decide (s.touches n k),
        (s.completeEltSet.drop n (s.node n)).nodeIDRegistry⟩ := by
      rw [← hreg, ← hh.localEdges, ← h.same, ← hh.localNodes]
    rw [← hnodes, ← hedges, ← hregs] at hl
    exact hl
  · rw [hedges] at hk
    obtain ⟨hk, hkt⟩ := List.mem_filter.1 hk
    have hv := hh.visible k hk
    rw [hkt, Bool.and_true] at hv
    rw [← hv, St.isVisible, hd.edge]
    rfl
  · rw [hd.untouched m, hh.node]
    intro k hk
    rw [hh.complete] at hk
    exact fun ht => hm k hk ((htu m k).1 ht)
  · intro m hm
    have hc : s'.copies m = u.copies m := copies_congr (fun k => by rw [hd.edge]; exact ⟨rfl, rfl⟩) m
    rw [hd.degree, hd.locality, hc]
    exact hcnt P hp m hm

/-- A node that is not in the graph cannot be deleted. -/
theorem Kept.deleteNode_absent (h : Kept out s) (hn : n ∉ s.completeEltSet.nodes) :
    VisibleLocality.deleteNode (some n) s = s := by
  rw [VisibleLocality.deleteNode, VisibleLocality.removeNode, if_neg (by rw [h.same]; exact hn), GraphEltSet.deleteNode,
    if_neg hn]

/-! ## The representation invariant -/

/-- The states between the calls of an editor. -/
structure Tidy (s : St) : Prop where
  kept : Kept (fun _ => False) s
  counted : CountedOn (Live s) s

theorem CountedOn.mono {P Q : NodeRef → Prop} (h : CountedOn P s) (hq : ∀ m, Q m → P m) : CountedOn Q s :=
  fun m hm => h m (hq m hm)

/-- Edges of the locality end in the graph. -/
theorem Tidy.not_touches (h : Tidy s) (hn : n ∉ s.completeEltSet.nodes) :
    ∀ k ∈ s.completeEltSet.edges, ¬s.touches n k := fun _ hk ht => hn (Shape.node_of_touches h.kept.shape hk ht)

theorem Tidy.newNode (h : Tidy s) (id lbl : Option String) : Tidy (newNode id lbl s) := by
  refine ⟨h.kept.newNode id lbl, fun m hm => ?_⟩
  by_cases hmn : m = s.nodesMade
  · subst hmn
    have hno := h.not_touches fun hn => Nat.lt_irrefl _ (h.kept.shape.nodes _ hn).1
    have hnil : s.visibleLocality.edges.flatMap (s.copies s.nodesMade) = [] :=
      List.flatMap_eq_nil_iff.2 fun k hk => St.copies_eq_nil.2 (hno k (h.kept.same ▸ hk))
    have hz : (Topo.newNode id lbl s).visibleEdgeCnt s.nodesMade = 0 := by simp [Topo.newNode]
    have hc : (Topo.newNode id lbl s).copies s.nodesMade = s.copies s.nodesMade := rfl
    have hl : (Topo.newNode id lbl s).visibleLocality = s.visibleLocality := rfl
    rw [hz, hc, hl, hnil]
    rfl
  · have hlive : Live s m := by
      obtain ⟨hlt, hm⟩ := hm
      have hlt : m < s.nodesMade := Nat.lt_of_le_of_ne (Nat.le_of_lt_succ hlt) hmn
      simpa [Live, Topo.newNode, hmn, hlt] using hm
    have hcnt := h.counted m hlive
    have hz : (Topo.newNode id lbl s).visibleEdgeCnt m = s.visibleEdgeCnt m := by simp [Topo.newNode, hmn]
    rw [hz]
    exact hcnt

theorem Tidy.newEdge (h : Tidy s) (f t : NodeRef) (visible : Bool) : Tidy (newEdge f t visible s) := by
  refine ⟨h.kept.newEdge f t visible, fun m hm => (h.counted m hm).trans (congrArg (fun l => (List.length l : Int)) ?_)⟩
  refine List.flatMap_congr fun k hk => ?_
  have hlt := (h.kept.shape.edges k (h.kept.same ▸ hk)).1
  simp [St.copies, Topo.newEdge, Nat.ne_of_lt hlt]

theorem Tidy.addNode (h : Tidy s) (hf : Fresh s n) (hid : ∃ id, (s.node n).id = some id) :
    Tidy (VisibleLocality.addNode n s).1 := by
  refine ⟨h.kept.addNode hf hid (h.not_touches hf.2.1), ?_⟩
  obtain ⟨id, hid⟩ := hid
  rw [h.kept.addNode_eq hf.2.1 hid]
  split
  · intro m hm
    have hlive : Live s m := by
      refine ⟨hm.1, ?_⟩
      rcases hm.2 with hm | hm
      · rcases List.mem_append.1 hm with hm | hm
        · exact .inl hm
        · rw [List.mem_singleton.1 hm]; exact .inr hf.2.2
      · exact .inr hm
    have hcnt := h.counted m hlive
    rw [h.kept.same] at hcnt
    exact hcnt
  · exact h.counted

theorem Tidy.deleteEdge (h : Tidy s) (e : EdgeRef) : Tidy (VisibleLocality.deleteEdge (some e) s) := by
  refine ⟨h.kept.deleteEdge e, (h.counted.deleteEdge e).mono fun m hm => ?_⟩
  have hcomp := (VisibleLocality.deleteEdge_edges s e).1
  obtain ⟨hnode, hmade, -, -, hcomp', -⟩ := VisibleLocality.removeEdge_frame s e
  have hmade' := (GraphEltSet.deleteEdge_frame e (VisibleLocality.removeEdge s e)).2.1
  have hlt : m < s.nodesMade := by
    rw [← hmade, ← hmade']
    exact hm.1
  refine ⟨hlt, ?_⟩
  by_cases hmn : m ∈ s.completeEltSet.nodes
  · exact .inl hmn
  · rcases hm.2 with hm | hm
    · rw [hcomp] at hm
      exact .inl hm
    · -- no edge ends at `m`, so its vector is the old one
      refine .inr ?_
      by_cases he : e ∈ s.completeEltSet.edges
      · have hnil : s.copies m e = [] := St.copies_eq_nil.2 (h.not_touches hmn e he)
        have hc := copies_congr (VisibleLocality.removeEdge_ends s e) m
        rw [VisibleLocality.deleteEdge, GraphEltSet.deleteEdge_edges (by rw [hcomp']; exact he), hc, hnil, hnode] at hm
        exact hm
      · rw [VisibleLocality.deleteEdge, GraphEltSet.deleteEdge, if_neg (by rw [hcomp']; exact he), hnode] at hm
        exact hm

theorem Tidy.addEdge (h : Tidy s) (he : e < s.edgesMade)
    (hends : ∀ m, s.touches m e → m ∈ s.completeEltSet.nodes) : Tidy (VisibleLocality.addEdge e s) := by
  have hk := h.kept.addEdge he fun m hm => ⟨(h.kept.shape.nodes m (hends m hm)).1, .inl (hends m hm)⟩
  by_cases hc : e ∈ s.completeEltSet.edges
  · rwa [VisibleLocality.addEdge, if_pos (by rw [h.kept.same]; exact hc)]
  · have ha := VisibleLocality.addEdge_added hc (by rw [h.kept.same]; exact hc)
    refine ⟨hk, (h.counted.added ha).mono fun m hm => ?_⟩
    rw [Live, ha.nodesMade, ha.complete, ha.vector] at hm
    exact ⟨hm.1, hm.2.imp_right fun hv => (List.append_eq_nil_iff.1 hv).1⟩

theorem Tidy.addNew (h : Tidy s) (visible : Bool) {f t : NodeRef} (hf : f ∈ s.completeEltSet.nodes)
    (ht : t ∈ s.completeEltSet.nodes) : Tidy (VisibleLocality.addEdge s.edgesMade (Topo.newEdge f t visible s)) := by
  refine (h.newEdge f t visible).addEdge (Nat.lt_succ_self _) fun m hm => ?_
  have hm : f = m ∨ t = m := by simpa [St.touches, Topo.newEdge] using hm
  rcases hm with rfl | rfl
  · exact hf
  · exact ht

theorem Tidy.updatePartitions (h : Tidy s) : Tidy (updatePartitions s) :=
  updatePartitions_rule (fun _ h => h.kept.shape.nodupEdges) (fun _ e h _ _ => h.deleteEdge e)
    (fun _ _ _ h ha hb => h.addNew false ha hb) h

theorem Tidy.deleteNode (h : Tidy s) (n : NodeRef) : Tidy (VisibleLocality.deleteNode (some n) s) := by
  by_cases hn : n ∈ s.completeEltSet.nodes
  · have hd := h.kept.deleteNode hn
    refine ⟨hd.kept, (hd.counted _ h.counted).mono fun m hm => ?_⟩
    rw [Live, hd.nodesMade, hd.nodes] at hm
    refine ⟨hm.1, ?_⟩
    by_cases hmn : m ∈ s.completeEltSet.nodes
    · exact .inl hmn
    · refine .inr ?_
      rw [← hd.untouched m (h.not_touches hmn)]
      exact hm.2.resolve_left fun hm => hmn (List.mem_of_mem_erase hm)
  · rwa [h.kept.deleteNode_absent hn]

theorem Kept.clearAll (h : Kept out s) : Kept out (TGPanel.clearAll s) := by
  have hends : ∀ k, ((TGPanel.clearAll s).edge k).getFrom = (s.edge k).getFrom ∧
      ((TGPanel.clearAll s).edge k).getTo = (s.edge k).getTo := fun k => by
    simp only [TGPanel.clearAll, VisibleLocality.clearAll, VisibleLocality.removeAll]
    split <;> exact ⟨rfl, rfl⟩
  refine ⟨⟨by rintro n ⟨⟩, ⟨.nil, .nil⟩, by rintro e ⟨⟩, .nil, by rintro n ⟨⟩, fun n e he => ?_⟩, rfl,
    fun id n => ⟨by rintro ⟨⟩, by rintro ⟨⟨⟩, -⟩⟩, by rintro n ⟨⟩⟩
  obtain ⟨h1, h2, h3⟩ := h.shape.ends n e he
  exact ⟨h1, h2, (touches_congr hends).2 h3⟩

theorem Tidy.clearAll (h : Tidy s) : Tidy (TGPanel.clearAll s) := by
  refine ⟨h.kept.clearAll, fun m hm => ?_⟩
  have hv : (s.node m).edges = [] := hm.2.resolve_left (by rintro ⟨⟩)
  have hcnt := h.counted m ⟨hm.1, .inr hv⟩
  -- a node without edges has none in the locality either
  have hnil : s.visibleLocality.edges.flatMap (s.copies m) = [] := by
    rw [h.kept.same]
    by_cases hmn : m ∈ s.completeEltSet.nodes
    · rw [← h.kept.shape.vector m hmn, hv]
    · exact List.flatMap_eq_nil_iff.2 fun k hk => St.copies_eq_nil.2 (h.not_touches hmn k hk)
  rw [hnil] at hcnt
  exact hcnt

/-! ## Runs -/

/-- What an editor calls: nodes it adds are fresh and have an ID, the ends of its edges are in the graph, and
it hides nothing. -/
def Edits (s : St) : Call → Prop
  | .addNode n => Fresh s n ∧ (s.node n).id ≠ none
  | .addEdge e => (s.edge e).getFrom ∈ s.completeEltSet.nodes ∧ (s.edge e).getTo ∈ s.completeEltSet.nodes
  | .addEdgeBetween f t => f ∈ s.completeEltSet.nodes ∧ t ∈ s.completeEltSet.nodes
  | .hideEdge _ => False
  | _ => True

instance (s : St) : (c : Call) → Decidable (Edits s c)
  | .addNode n => inferInstanceAs (Decidable (Fresh s n ∧ (s.node n).id ≠ none))
  | .addEdge e =>
    inferInstanceAs (Decidable ((s.edge e).getFrom ∈ s.completeEltSet.nodes ∧ (s.edge e).getTo ∈ s.completeEltSet.nodes))
  | .addEdgeBetween f t => inferInstanceAs (Decidable (f ∈ s.completeEltSet.nodes ∧ t ∈ s.completeEltSet.nodes))
  | .hideEdge _ => inferInstanceAs (Decidable False)
  | .newNode _ _ | .newEdge _ _ | .deleteEdge _ | .deleteEdgeBetween _ _ | .deleteNode _ | .clearAll => isTrue trivial

/-- The locality and the graph are one graph, and registries, edge vectors and counters say the same. -/
structure Represented (s : St) : Prop where
  nodes : s.visibleLocality.nodes = s.completeEltSet.nodes ∧ s.completeEltSet.nodes.Nodup
  edges : s.visibleLocality.edges = s.completeEltSet.edges ∧ s.completeEltSet.edges.Nodup
  registry : ∀ g ∈ [s.visibleLocality, s.completeEltSet], ∀ id n,
    g.findNode id = some n ↔ n ∈ g.nodes ∧ (s.node n).id = some id
  id : ∀ n ∈ s.completeEltSet.nodes, ∃ id, (s.node n).id = some id
  ends : ∀ e ∈ s.completeEltSet.edges,
    (s.edge e).getFrom ∈ s.completeEltSet.nodes ∧ (s.edge e).getTo ∈ s.completeEltSet.nodes
  vector : ∀ n ∈ s.completeEltSet.nodes, ∀ e, (s.node n).edges.count e =
    if e ∈ s.completeEltSet.edges then
      (if (s.edge e).getFrom = n then 1 else 0) + if (s.edge e).getTo = n then 1 else 0
    else 0
  degree : ∀ n ∈ s.completeEltSet.nodes, s.visibleEdgeCnt n = (s.node n).edges.length

theorem St.count_copies (s : St) (n : NodeRef) (e k : EdgeRef) :
    (s.copies n k).count e =
      if k = e then (if (s.edge e).getFrom = n then 1 else 0) + if (s.edge e).getTo = n then 1 else 0 else 0 := by
  by_cases hke : k = e
  · subst hke
    unfold copies
    split <;> split <;> simp
  · rw [if_neg hke]
    exact List.count_eq_zero.2 fun he => hke (s.eq_of_mem_copies n k e he).symm

theorem St.count_vector (s : St) (n : NodeRef) (e : EdgeRef) {l : List EdgeRef} (hl : l.Nodup) :
    (l.flatMap (s.copies n)).count e =
      if e ∈ l then (if (s.edge e).getFrom = n then 1 else 0) + if (s.edge e).getTo = n then 1 else 0 else 0 := by
  induction l with
  | nil => rfl
  | cons k l ih =>
    obtain ⟨hk, hl⟩ := List.nodup_cons.1 hl
    rw [List.flatMap_cons, List.count_append, St.count_copies, ih hl]
    by_cases hke : k = e
    · subst hke
      simp [hk]
    · simp [hke, Ne.symm hke]

theorem Tidy.represented (h : Tidy s) : Represented s where
  nodes := ⟨by rw [h.kept.same], h.kept.shape.nodup.1⟩
  edges := ⟨by rw [h.kept.same], h.kept.shape.nodupEdges⟩
  registry := by
    intro g hg id n
    have hg : g = s.completeEltSet := by simpa [h.kept.same] using hg
    rw [hg]
    exact h.kept.registered.findNode id n
  id := h.kept.registered.id
  ends := fun e he => ⟨Shape.node_of_touches h.kept.shape he (.inl rfl), Shape.node_of_touches h.kept.shape he (.inr rfl)⟩
  vector := fun n hn e => by rw [h.kept.shape.vector n hn, St.count_vector s n e h.kept.shape.nodupEdges]
  degree := fun n hn => by
    rw [h.counted n ⟨(h.kept.shape.nodes n hn).1, .inl hn⟩, h.kept.same, h.kept.shape.vector n hn]

theorem Tidy.init : Tidy init := by
  refine ⟨⟨⟨by rintro n ⟨⟩, ⟨.nil, .nil⟩, by rintro e ⟨⟩, .nil, by rintro n ⟨⟩, by rintro n e ⟨⟩⟩, rfl,
    fun id n => ⟨by rintro ⟨⟩, by rintro ⟨⟨⟩, -⟩⟩, by rintro n ⟨⟩⟩, fun m hm => ?_⟩
  exact absurd hm.1 (Nat.not_lt_zero m)

theorem Tidy.call (h : Tidy s) (he : Edits s c) (hc : Topo.call s c = some s') : Tidy s' := by
  cases c with
  | newNode id lbl => cases hc; exact h.newNode id lbl
  | newEdge f t =>
    obtain ⟨-, hc⟩ := Option.ite_none_right_eq_some.1 hc
    cases hc
    exact h.newEdge f t true
  | addNode n =>
    obtain ⟨-, hc⟩ := Option.ite_none_right_eq_some.1 hc
    cases hc
    have ha := h.addNode he.1 (Option.ne_none_iff_exists'.1 he.2)
    unfold TGPanel.addNode
    split
    · rename_i heq; rw [heq] at ha; exact ha.updatePartitions
    · rename_i heq; rw [heq] at ha; exact ha
  | addEdge e =>
    obtain ⟨hlt, hc⟩ := Option.ite_none_right_eq_some.1 hc
    cases hc
    refine (h.addEdge hlt fun m hm => ?_).updatePartitions
    rcases hm with rfl | rfl
    · exact he.1
    · exact he.2
  | addEdgeBetween f t =>
    obtain ⟨-, hc⟩ := Option.ite_none_right_eq_some.1 hc
    cases hc
    exact (h.addNew true he.1 he.2).updatePartitions
  | deleteEdge e =>
    cases hc
    cases e with
    | none => exact h.updatePartitions
    | some e => exact (h.deleteEdge e).updatePartitions
  | deleteEdgeBetween f t =>
    cases hc
    unfold TGPanel.deleteEdgeBetween
    cases VisibleLocality.findEdge f t s with
    | none => exact h.updatePartitions
    | some e => exact (h.deleteEdge e).updatePartitions
  | deleteNode n =>
    cases hc
    cases n with
    | none => exact h.updatePartitions
    | some n => exact (h.deleteNode n).updatePartitions
  | hideEdge e => exact he.elim
  | clearAll => cases hc; exact h.clearAll

/-- **After every call of an editor both element sets hold one graph without duplicates, the registries map the
IDs of its nodes, its edges end in it, each edge vector holds the edges at its node, a loop twice, and
`visibleEdgeCnt` is the size of the vector.** -/
theorem representation_invariant (h : Lts.Reach call Edits init s) : Represented s :=
  (h.invariant (I := Tidy) Tidy.init fun _ _ _ ht ho hc => ht.call ho hc).represented

/-- Two nodes, a rejected third one, two parallel edges, a loop, and the first node is deleted again. -/
def editCalls : List Call :=
  [.newNode (some "1") none, .addNode 0, .newNode (some "2") none, .addNode 1, .newNode (some "2") none, .addNode 2,
    .addEdgeBetween 0 1, .newEdge 1 0, .addEdge 2, .addEdgeBetween 1 1, .deleteNode (some 0)]

theorem editCalls_possible : (Lts.execOk call Edits init editCalls).isSome = true := by decide +kernel

theorem representation_invariant_editCalls : Represented ((Lts.execOk call Edits init editCalls).get editCalls_possible) :=
  representation_invariant (Lts.reach_get editCalls editCalls_possible)

end Topo
