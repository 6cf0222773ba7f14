import Awds.Topo.Shape

/-!
# Adding nodes and edges keeps the shape

`Joined` and `Added` say what `VisibleLocality.addNode` and `VisibleLocality.addEdge` do with a node and an
edge that are not in the graph, `Grown` what becomes of a new edge.
-/

namespace Topo

variable {s s' : St} {n m f t : NodeRef} {e k : EdgeRef} {out : NodeRef → Prop}

/-! ## Nodes -/

theorem ShapeBut.newNode (h : ShapeBut out s) (id lbl : Option String) : ShapeBut out (newNode id lbl s) := by
  have hold : ∀ n, n < s.nodesMade → (Topo.newNode id lbl s).node n = s.node n := fun n hn => by
    simp [Topo.newNode, Nat.ne_of_lt hn]
  refine ⟨fun n hn => ⟨Nat.lt_succ_of_lt (h.nodes n hn).1, (h.nodes n hn).2⟩, h.nodup, h.edges, h.nodupEdges,
    fun n hn => ?_, fun n e he => ?_⟩
  · rw [hold n (h.nodes n hn).1]
    exact h.vector n hn
  · by_cases hn : n = s.nodesMade
    · subst hn
      simp [Topo.newNode] at he
    · have heq : (Topo.newNode id lbl s).node n = s.node n := by simp [Topo.newNode, hn]
      obtain ⟨h1, h2, h3⟩ := h.ends n e (heq ▸ he)
      exact ⟨h1, Nat.lt_succ_of_lt h2, h3⟩

/-- `addNode`, thrown or not: at most the ID of the node is new, and the node is in one set, in both
or in none. -/
structure Joined (n : NodeRef) (s s' : St) : Prop where
  node : ∀ m, (s'.node m).partID = (s.node m).partID ∧ (s'.node m).edges = (s.node m).edges
  nodesMade : s'.nodesMade = s.nodesMade
  edge : s'.edge = s.edge
  edgesMade : s'.edgesMade = s.edgesMade
  cnt : s'.globPartCnt = s.globPartCnt
  completeNodes : s'.completeEltSet.nodes = s.completeEltSet.nodes ∨
    s'.completeEltSet.nodes = s.completeEltSet.nodes ++ [n] ∧ n ∈ s'.visibleLocality.nodes
  completeEdges : s'.completeEltSet.edges = s.completeEltSet.edges
  localNodes : s'.visibleLocality.nodes = s.visibleLocality.nodes ∨
    n ∉ s.visibleLocality.nodes ∧ s'.visibleLocality.nodes = s.visibleLocality.nodes ++ [n]
  localEdges : s'.visibleLocality.edges = s.visibleLocality.edges

theorem GraphEltSet.addNode_ok {g g' : GraphEltSet} {node : Node} {id : String}
    (h : g.addNode n node = .ok (id, g')) : g' = g.put id n := by
  unfold addNode at h
  split at h
  · split at h
    · cases h; rfl
    · cases h
  · split at h
    · cases h
    · cases h; rfl

theorem VisibleLocality.addNode_joined (n : NodeRef) (s : St) : Joined n s (addNode n s).1 := by
  have hid : ∀ (id : String) (m : NodeRef),
      ((s.setNode n fun v => { v with id := some id }).node m).partID = (s.node m).partID ∧
        ((s.setNode n fun v => { v with id := some id }).node m).edges = (s.node m).edges := fun id m => by
    by_cases hm : m = n
    · subst hm; simp [St.setNode]
    · simp [St.setNode, hm]
  have hrefl : Joined n s s := ⟨fun _ => ⟨rfl, rfl⟩, rfl, rfl, rfl, rfl, .inl rfl, rfl, .inl rfl, rfl⟩
  unfold addNode
  split
  · exact hrefl
  · rename_i hn
    split
    · exact hrefl
    · rename_i id g hg
      obtain rfl := GraphEltSet.addNode_ok hg
      dsimp only
      split
      · exact ⟨hid id, rfl, rfl, rfl, rfl, .inl rfl, rfl, .inr ⟨hn, rfl⟩, rfl⟩
      · split
        · exact ⟨hid id, rfl, rfl, rfl, rfl, .inl rfl, rfl, .inr ⟨hn, rfl⟩, rfl⟩
        · rename_i id' g' hg'
          obtain rfl := GraphEltSet.addNode_ok hg'
          exact ⟨hid id, rfl, rfl, rfl, rfl, .inr ⟨rfl, by simp [GraphEltSet.put]⟩, rfl, .inr ⟨hn, rfl⟩, rfl⟩

/-- A fresh node keeps the shape if no edge of the graph ends there. -/
theorem Joined.shapeBut (hj : Joined n s s') (h : ShapeBut out s) (hf : Fresh s n)
    (hno : ∀ e ∈ s.completeEltSet.edges, ¬s.touches n e) : ShapeBut out s' := by
  have hc : ∀ m, s'.copies m = s.copies m := copies_congr fun k => by rw [hj.edge]; exact ⟨rfl, rfl⟩
  have ht : ∀ m k, s'.touches m k ↔ s.touches m k := fun m k => touches_congr fun k => by rw [hj.edge]; exact ⟨rfl, rfl⟩
  have hin : ∀ m, m ∈ s'.completeEltSet.nodes → m ∈ s.completeEltSet.nodes ∨ m = n ∧ n ∈ s'.visibleLocality.nodes := by
    intro m hm
    rcases hj.completeNodes with he | ⟨he, hl⟩
    · exact .inl (he ▸ hm)
    · rw [he] at hm
      exact (List.mem_append.1 hm).imp id fun h => ⟨List.mem_singleton.1 h, hl⟩
  have hsub : ∀ m ∈ s.completeEltSet.nodes, m ∈ s'.completeEltSet.nodes := by
    intro m hm
    rcases hj.completeNodes with he | ⟨he, -⟩ <;> rw [he]
    · exact hm
    · exact List.mem_append_left _ hm
  constructor
  · intro m hm
    rw [hj.nodesMade]
    rcases hin m hm with hm | ⟨rfl, hl⟩
    · refine ⟨(h.nodes m hm).1, ?_⟩
      rcases hj.localNodes with he | ⟨-, he⟩ <;> rw [he]
      · exact (h.nodes m hm).2
      · exact List.mem_append_left _ (h.nodes m hm).2
    · exact ⟨hf.1, hl⟩
  · constructor
    · rcases hj.completeNodes with he | ⟨he, -⟩ <;> rw [he]
      · exact h.nodup.1
      · exact List.nodup_append.2 ⟨h.nodup.1, List.nodup_singleton _, fun a ha b hb => by
          rw [List.mem_singleton.1 hb]; exact fun hab => hf.2.1 (hab ▸ ha)⟩
    · rcases hj.localNodes with he | ⟨hn, he⟩ <;> rw [he]
      · exact h.nodup.2
      · exact List.nodup_append.2 ⟨h.nodup.2, List.nodup_singleton _, fun a ha b hb => by
          rw [List.mem_singleton.1 hb]; exact fun hab => hn (hab ▸ ha)⟩
  · rw [hj.completeEdges, hj.edgesMade]
    exact fun e he => ⟨(h.edges e he).1, fun m hm => ((h.edges e he).2 m ((ht m e).1 hm)).imp_left (hsub m)⟩
  · rw [hj.completeEdges]; exact h.nodupEdges
  · intro m hm
    rw [(hj.node m).2, hj.completeEdges, hc m]
    rcases hin m hm with hm | ⟨rfl, -⟩
    · exact h.vector m hm
    · rw [hf.2.2]
      exact (List.flatMap_eq_nil_iff.2 fun e he => St.copies_eq_nil.2 (hno e he)).symm
  · intro m e he
    rw [(hj.node m).2] at he
    rw [hj.edgesMade, hj.nodesMade, ht]
    exact h.ends m e he

theorem Joined.shape (hj : Joined n s s') (h : Shape s) (hf : Fresh s n) : Shape s' :=
  hj.shapeBut h hf fun _ he htm => hf.2.1 (h.node_of_touches he htm)

/-! ## Edges -/

theorem ShapeBut.newEdge (h : ShapeBut out s) (f t : NodeRef) (visible : Bool) :
    ShapeBut out (newEdge f t visible s) := by
  have hold : ∀ k < s.edgesMade, (Topo.newEdge f t visible s).edge k = s.edge k := fun k hk => by
    simp [Topo.newEdge, Nat.ne_of_lt hk]
  have htouch : ∀ m, ∀ k < s.edgesMade, ((Topo.newEdge f t visible s).touches m k ↔ s.touches m k) := fun m k hk => by
    simp only [St.touches, hold k hk]
  refine ⟨h.nodes, h.nodup, fun k hk => ⟨Nat.lt_succ_of_lt (h.edges k hk).1, fun m hm => ?_⟩, h.nodupEdges,
    fun m hm => ?_, fun m k hk => ?_⟩
  · exact (h.edges k hk).2 m ((htouch m k (h.edges k hk).1).1 hm)
  · refine (h.vector m hm).trans (List.flatMap_congr fun k hk => ?_)
    simp only [St.copies, hold k (h.edges k hk).1]
  · obtain ⟨h1, h2, h3⟩ := h.ends m k hk
    exact ⟨Nat.lt_succ_of_lt h1, h2, (htouch m k h1).2 h3⟩

/-- The edge `e` comes to the graph and to the vectors of its ends. -/
theorem ShapeBut.grow (h : ShapeBut out s) (hlt : e < s.edgesMade) (hnew : e ∉ s.completeEltSet.edges)
    (hends : ∀ m, s.touches m e → m < s.nodesMade ∧ (m ∈ s.completeEltSet.nodes ∨ out m))
    (hcomp : s'.completeEltSet = { s.completeEltSet with edges := s.completeEltSet.edges ++ [e] })
    (hloc : s'.visibleLocality.nodes = s.visibleLocality.nodes) (hmade : s'.nodesMade = s.nodesMade)
    (hemade : s'.edgesMade = s.edgesMade) (hedge : s'.edge = s.edge)
    (hvec : ∀ m, (s'.node m).edges = (s.node m).edges ++ s.copies m e) : ShapeBut out s' where
  nodes := by rw [hcomp, hloc, hmade]; exact h.nodes
  nodup := by rw [hcomp, hloc]; exact h.nodup
  edges := by
    simp only [St.touches, hcomp, hemade, hedge]
    intro k hk
    rcases List.mem_append.1 hk with hk | hk
    · exact h.edges k hk
    · obtain rfl := List.mem_singleton.1 hk
      exact ⟨hlt, fun m hm => (hends m hm).2⟩
  nodupEdges := by
    rw [hcomp]
    refine List.nodup_append.2 ⟨h.nodupEdges, List.nodup_singleton _, fun a ha b hb => ?_⟩
    rw [List.mem_singleton.1 hb]
    rintro rfl
    exact hnew ha
  vector := by
    have hc : s'.copies = s.copies := funext fun m => copies_congr (fun k => by rw [hedge]; exact ⟨rfl, rfl⟩) m
    rw [hcomp, hc]
    intro m hm
    rw [hvec, List.flatMap_append, h.vector m hm]
    simp
  ends := by
    simp only [St.touches, hmade, hemade, hedge]
    intro m k hk
    rw [hvec] at hk
    rcases List.mem_append.1 hk with hk | hk
    · exact h.ends m k hk
    · obtain rfl := s.eq_of_mem_copies m _ k hk
      have htm := s.mem_copies.1 hk
      exact ⟨hlt, (hends m htm).1, htm⟩

/-- The panel takes in the edge `e`. -/
structure Added (e : EdgeRef) (s s' : St) : Prop where
  edge : s'.edge = s.edge
  nodesMade : s'.nodesMade = s.nodesMade
  edgesMade : s'.edgesMade = s.edgesMade
  cnt : s'.globPartCnt = s.globPartCnt
  complete : s'.completeEltSet = { s.completeEltSet with edges := s.completeEltSet.edges ++ [e] }
  locality : s'.visibleLocality = { s.visibleLocality with edges := s.visibleLocality.edges ++ [e] }
  vector : ∀ m, (s'.node m).edges = (s.node m).edges ++ s.copies m e
  id : ∀ m, (s'.node m).id = (s.node m).id ∧ (s'.node m).lbl = (s.node m).lbl
  degree : ∀ m, s'.visibleEdgeCnt m = s.visibleEdgeCnt m + (s.copies m e).length

theorem St.countEdge_degree (s : St) (e : EdgeRef) (d : Int) (m : NodeRef) :
    (s.countEdge e d).visibleEdgeCnt m = s.visibleEdgeCnt m + (s.copies m e).length * d := by
  by_cases hf : (s.edge e).getFrom = m <;> by_cases ht : (s.edge e).getTo = m
  all_goals simp [countEdge, copies, hf, ht, Function.update_apply, eq_comm (a := m)]
  omega

/-- An edge that is in neither edge list goes to the end of both, and to its nodes. -/
theorem VisibleLocality.addEdge_eq (hc : e ∉ s.completeEltSet.edges) (hl : e ∉ s.visibleLocality.edges) :
    addEdge e s = (Node.addEdge (s.edge e).getTo e (Node.addEdge (s.edge e).getFrom e
      ((s.setLocalEdges (s.visibleLocality.edges ++ [e])).setCompleteEdges
        (s.completeEltSet.edges ++ [e])))).countEdge e 1 := by
  have hcl : e ∉ (s.setLocalEdges (s.visibleLocality.edges ++ [e])).completeEltSet.edges := hc
  rw [addEdge, if_neg hl]
  refine congrArg (St.countEdge · e 1) ((if_neg hcl).trans ?_)
  rw [GraphEltSet.addEdge, if_neg hcl]
  simp [St.setLocalEdges, St.setCompleteEdges]

theorem VisibleLocality.addEdge_added (hc : e ∉ s.completeEltSet.edges) (hl : e ∉ s.visibleLocality.edges) :
    Added e s (addEdge e s) := by
  rw [addEdge_eq hc hl]
  refine ⟨by simp; rfl, by simp; rfl, by simp; rfl, by simp; rfl, by simp; rfl, by simp; rfl, fun m => ?_,
    fun m => ?_, fun m => ?_⟩
  · simp only [St.countEdge_node, Node.addEdge_edges, St.copies]
    by_cases hf : (s.edge e).getFrom = m <;> by_cases ht : (s.edge e).getTo = m
    all_goals simp [hf, ht, eq_comm (a := m), St.setLocalEdges, St.setCompleteEdges]
  · simp [St.countEdge, Node.addEdge_eq, St.setLocalEdges, St.setCompleteEdges]
  · rw [St.countEdge_degree]
    simp [Node.addEdge_eq, St.copies, St.setLocalEdges, St.setCompleteEdges]

theorem Added.shape (ha : Added e s s') (h : ShapeBut out s) (hlt : e < s.edgesMade)
    (hnew : e ∉ s.completeEltSet.edges)
    (hends : ∀ m, s.touches m e → m < s.nodesMade ∧ (m ∈ s.completeEltSet.nodes ∨ out m)) : ShapeBut out s' :=
  h.grow hlt hnew hends ha.complete (by rw [ha.locality]) ha.nodesMade ha.edgesMade ha.edge ha.vector

/-- The panel takes in the new edge `s.edgesMade` from `f` to `t`. -/
structure Grown (f t : NodeRef) (visible : Bool) (s s' : St) : Prop where
  edge : s'.edge = Function.update s.edge s.edgesMade ⟨f, t, visible⟩
  nodesMade : s'.nodesMade = s.nodesMade
  edgesMade : s'.edgesMade = s.edgesMade + 1
  cnt : s'.globPartCnt = s.globPartCnt
  complete : s'.completeEltSet = { s.completeEltSet with edges := s.completeEltSet.edges ++ [s.edgesMade] }
  locality : s'.visibleLocality = { s.visibleLocality with edges := s.visibleLocality.edges ++ [s.edgesMade] }
  vector : ∀ m, (s'.node m).edges = (s.node m).edges ++ s'.copies m s.edgesMade

/-- The new edge is in both edge lists, and in no vector. -/
def St.push (f t : NodeRef) (visible : Bool) (s : St) : St :=
  ((newEdge f t visible s).setLocalEdges (s.visibleLocality.edges ++ [s.edgesMade])).setCompleteEdges
    (s.completeEltSet.edges ++ [s.edgesMade])

/-- The next edge is in neither edge list. -/
theorem Shape.newEdge_notMem (h : Shape s) (hs : Synced s) (f t : NodeRef) (visible : Bool) :
    s.edgesMade ∉ (newEdge f t visible s).completeEltSet.edges ∧
      s.edgesMade ∉ (newEdge f t visible s).visibleLocality.edges := by
  have hnew : s.edgesMade ∉ s.completeEltSet.edges := fun he => Nat.lt_irrefl _ (h.edges _ he).1
  refine ⟨hnew, ?_⟩
  rw [show (newEdge f t visible s).visibleLocality.edges = s.completeEltSet.edges from hs]
  exact hnew

theorem Shape.addEdge_new (h : Shape s) (hs : Synced s) (f t : NodeRef) (visible : Bool) :
    VisibleLocality.addEdge s.edgesMade (newEdge f t visible s) =
      (Node.addEdge t s.edgesMade (Node.addEdge f s.edgesMade (s.push f t visible))).countEdge s.edgesMade 1 := by
  obtain ⟨hc, hl⟩ := h.newEdge_notMem hs f t visible
  rw [VisibleLocality.addEdge_eq hc hl]
  simp [St.push, newEdge]

theorem Shape.addEdge_grown (h : Shape s) (hs : Synced s) (f t : NodeRef) (visible : Bool) :
    Grown f t visible s (VisibleLocality.addEdge s.edgesMade (Topo.newEdge f t visible s)) := by
  obtain ⟨hc, hl⟩ := h.newEdge_notMem hs f t visible
  have ha := VisibleLocality.addEdge_added hc hl
  refine ⟨ha.edge, ha.nodesMade, ha.edgesMade, ha.cnt, ha.complete, ha.locality, fun m => ?_⟩
  have hcopies : (VisibleLocality.addEdge s.edgesMade (Topo.newEdge f t visible s)).copies m =
      (Topo.newEdge f t visible s).copies m := copies_congr (fun k => by rw [ha.edge]; exact ⟨rfl, rfl⟩) m
  rw [ha.vector, hcopies]
  rfl

theorem Grown.shape {visible : Bool} (hg : Grown f t visible s s') (h : Shape s)
    (hf : f ∈ s.completeEltSet.nodes) (ht : t ∈ s.completeEltSet.nodes) : Shape s' := by
  have hc : ∀ m, s'.copies m = (Topo.newEdge f t visible s).copies m :=
    copies_congr fun k => by rw [hg.edge]; exact ⟨rfl, rfl⟩
  refine (ShapeBut.newEdge h f t visible).grow (Nat.lt_succ_self _) (fun he => Nat.lt_irrefl _ (h.edges _ he).1)
    (fun m hm => ?_) hg.complete (by rw [hg.locality]; rfl) hg.nodesMade hg.edgesMade hg.edge
    fun m => by rw [hg.vector, hc]; rfl
  have hm : f = m ∨ t = m := by simpa [St.touches, Topo.newEdge] using hm
  rcases hm with rfl | rfl
  · exact ⟨(h.nodes _ hf).1, .inl hf⟩
  · exact ⟨(h.nodes _ ht).1, .inl ht⟩

theorem Grown.synced {visible : Bool} (hg : Grown f t visible s s') (hs : Synced s) : Synced s' := by
  rw [Synced, hg.locality, hg.complete, hs]

end Topo
