import Awds.Topo.Node

/-!
# The lists of the graph agree

`Shape`: the edge vector of each node in the graph is determined by `completeEltSet.edges`, and everything
the sets hold was made. Partition IDs and the visibility of edges play no part in it. Here: deleting edges
and nodes keeps it. The loop of `deleteNode` has a rule of its own, `unlinkFrom_rule`.
-/

namespace Topo

variable {s s' : St} {n m f t : NodeRef} {e k : EdgeRef} {out : NodeRef → Prop}

/-! ## The shape -/

/-- The places of `e` in the edge vector of `n`: one for each end that is `n`. -/
def St.copies (s : St) (n : NodeRef) (e : EdgeRef) : List EdgeRef :=
  (if (s.edge e).getFrom = n then [e] else []) ++ if (s.edge e).getTo = n then [e] else []

theorem St.eq_of_mem_copies (s : St) (n : NodeRef) : ∀ e, ∀ k ∈ s.copies n e, k = e := by
  intro e k
  unfold copies
  split <;> split <;> simp

theorem St.mem_copies : e ∈ s.copies n e ↔ s.touches n e := by
  unfold copies touches
  split <;> split <;> simp_all

theorem St.copies_eq_nil : s.copies n e = [] ↔ ¬s.touches n e := by
  unfold copies touches
  split <;> split <;> simp_all

/-- The shape, but for edges that end at nodes `out` of the graph: the node whose edges `deleteNode` is
taking away, or a node that never got in. -/
structure ShapeBut (out : NodeRef → Prop) (s : St) : Prop where
  nodes : ∀ n ∈ s.completeEltSet.nodes, n < s.nodesMade ∧ n ∈ s.visibleLocality.nodes
  nodup : s.completeEltSet.nodes.Nodup ∧ s.visibleLocality.nodes.Nodup
  edges : ∀ e ∈ s.completeEltSet.edges, e < s.edgesMade ∧
    ∀ n, s.touches n e → n ∈ s.completeEltSet.nodes ∨ out n
  nodupEdges : s.completeEltSet.edges.Nodup
  vector : ∀ n ∈ s.completeEltSet.nodes, (s.node n).edges = s.completeEltSet.edges.flatMap (s.copies n)
  ends : ∀ n, ∀ e ∈ (s.node n).edges, e < s.edgesMade ∧ n < s.nodesMade ∧ s.touches n e

/-- Edge vectors and element sets agree. -/
abbrev Shape (s : St) : Prop := ShapeBut (fun _ => False) s

/-- The locality holds the edges of the graph, in the same order. -/
def Synced (s : St) : Prop := s.visibleLocality.edges = s.completeEltSet.edges

theorem ShapeBut.mem_vector (h : ShapeBut out s) (hn : n ∈ s.completeEltSet.nodes) :
    e ∈ (s.node n).edges ↔ e ∈ s.completeEltSet.edges ∧ s.touches n e := by
  rw [h.vector n hn, List.mem_flatMap]
  constructor
  · rintro ⟨k, hk, he⟩
    obtain rfl := s.eq_of_mem_copies n k e he
    exact ⟨hk, s.mem_copies.1 he⟩
  · rintro ⟨he, ht⟩
    exact ⟨e, he, s.mem_copies.2 ht⟩

theorem Shape.node_of_touches (h : Shape s) (he : e ∈ s.completeEltSet.edges) (ht : s.touches n e) :
    n ∈ s.completeEltSet.nodes :=
  ((h.edges e he).2 n ht).resolve_right id

/-- An edge of the graph is in the vectors of the nodes at its ends, and in no other. -/
theorem Shape.mem_vector_iff (h : Shape s) (he : e ∈ s.completeEltSet.edges) :
    e ∈ (s.node n).edges ↔ s.touches n e :=
  ⟨fun hm => (h.ends n e hm).2.2, fun ht => (ShapeBut.mem_vector h (h.node_of_touches he ht)).2 ⟨he, ht⟩⟩

/-! ### Vectors without an edge -/

section
variable {c : EdgeRef → List EdgeRef} (hc : ∀ x, ∀ y ∈ c x, y = x)
include hc

theorem flatMap_diff : ∀ {es : List EdgeRef}, e ∈ es → (es.flatMap c).diff (c e) = (es.erase e).flatMap c
  | x :: es, he => by
    by_cases hx : x = e
    · subst hx
      have happ : ∀ l rest : List EdgeRef, (l ++ rest).diff l = rest := fun l rest => by
        induction l with
        | nil => simp
        | cons a l ih => simp [List.diff_cons, ih]
      rw [List.erase_cons_head, List.flatMap_cons, happ]
    · have he : e ∈ es := (List.mem_cons.1 he).resolve_left fun h => hx h.symm
      have hout : ∀ l rest : List EdgeRef, (∀ y ∈ l, y ∉ c x) → (c x ++ rest).diff l = c x ++ rest.diff l :=
        fun l => by
          induction l with
          | nil => simp
          | cons a l ih =>
            intro rest hl
            rw [List.diff_cons, List.diff_cons, List.erase_append_right _ (hl a (by simp)),
              ih _ fun y hy => hl y (by simp [hy])]
      rw [List.erase_cons_tail (by simpa using hx), List.flatMap_cons, List.flatMap_cons,
        hout _ _ fun y hy hyx => hx ((hc x y hyx).symm.trans (hc e y hy)), flatMap_diff he]

/-- The edge at the front of a vector stands there with all its places. -/
theorem flatMap_head : ∀ {es rest : List EdgeRef}, es.flatMap c = e :: rest →
    e ∈ es ∧ es.flatMap c = c e ++ (es.erase e).flatMap c
  | x :: es, rest, h => by
    rw [List.flatMap_cons] at h ⊢
    cases hcx : c x with
    | nil =>
      rw [hcx, List.nil_append] at h
      obtain ⟨he, heq⟩ := flatMap_head h
      have hx : x ≠ e := by
        rintro rfl
        obtain ⟨y, -, hy⟩ := List.mem_flatMap.1 (h ▸ List.mem_cons_self : x ∈ es.flatMap c)
        rw [← hc y x hy, hcx] at hy
        cases hy
      rw [List.erase_cons_tail (by simpa using hx), List.flatMap_cons, hcx]
      exact ⟨List.mem_cons_of_mem _ he, by simpa using heq⟩
    | cons y l =>
      rw [hcx, List.cons_append, List.cons.injEq] at h
      obtain rfl : x = e := (hc x y (hcx ▸ List.mem_cons_self)).symm.trans h.1
      rw [List.erase_cons_head, hcx]
      exact ⟨List.mem_cons_self, rfl⟩

end

/-! ## Deleting an edge -/

theorem copies_congr (h : ∀ k, (s'.edge k).getFrom = (s.edge k).getFrom ∧ (s'.edge k).getTo = (s.edge k).getTo)
    (n : NodeRef) : s'.copies n = s.copies n := by
  funext k
  simp only [St.copies, (h k).1, (h k).2]

theorem touches_congr (h : ∀ k, (s'.edge k).getFrom = (s.edge k).getFrom ∧ (s'.edge k).getTo = (s.edge k).getTo) :
    s'.touches n e ↔ s.touches n e := by
  simp only [St.touches, (h e).1, (h e).2]

/-- The edge `e` leaves the graph and the vectors of its ends. -/
theorem ShapeBut.erase (h : ShapeBut out s) (he : e ∈ s.completeEltSet.edges)
    (hcomp : s'.completeEltSet = { s.completeEltSet with edges := s.completeEltSet.edges.erase e })
    (hloc : s'.visibleLocality = s.visibleLocality) (hmade : s'.nodesMade = s.nodesMade)
    (hemade : s'.edgesMade = s.edgesMade) (hedge : s'.edge = s.edge)
    (hvec : ∀ n ∈ s.completeEltSet.nodes, (s'.node n).edges = (s.node n).edges.diff (s.copies n e))
    (hsub : ∀ n, ∀ k ∈ (s'.node n).edges, k ∈ (s.node n).edges) : ShapeBut out s' where
  nodes := by rw [hcomp, hloc, hmade]; exact h.nodes
  nodup := by rw [hcomp, hloc]; exact h.nodup
  edges := by
    simp only [St.touches, hcomp, hemade, hedge]
    exact fun k hk => h.edges k (List.mem_of_mem_erase hk)
  nodupEdges := by rw [hcomp]; exact h.nodupEdges.erase e
  vector := by
    have hc : s'.copies = s.copies := funext fun n => copies_congr (fun k => by rw [hedge]; exact ⟨rfl, rfl⟩) n
    rw [hcomp, hc]
    exact fun n hn => by rw [hvec n hn, h.vector n hn, flatMap_diff (s.eq_of_mem_copies n) he]
  ends := by
    simp only [St.touches, hmade, hemade, hedge]
    exact fun n k hk => h.ends n k (hsub n k hk)

/-- `deleteEdge` takes all places of `e` from the vectors of its ends. -/
theorem GraphEltSet.deleteEdge_edges (he : e ∈ s.completeEltSet.edges) (n : NodeRef) :
    ((GraphEltSet.deleteEdge e s).node n).edges = (s.node n).edges.diff (s.copies n e) := by
  simp only [deleteEdge, he, if_true, Node.removeEdge_edges, St.setCompleteEdges, St.copies]
  by_cases hf : (s.edge e).getFrom = n <;> by_cases ht : (s.edge e).getTo = n
  all_goals simp [hf, ht, eq_comm (a := n), List.diff_cons]

theorem GraphEltSet.deleteEdge_frame (e : EdgeRef) (s : St) :
    (deleteEdge e s).edge = s.edge ∧ (deleteEdge e s).nodesMade = s.nodesMade ∧
      (deleteEdge e s).edgesMade = s.edgesMade ∧ (deleteEdge e s).visibleLocality = s.visibleLocality ∧
      (deleteEdge e s).completeEltSet = { s.completeEltSet with edges := s.completeEltSet.edges.erase e } := by
  unfold deleteEdge
  split
  · simp [St.setCompleteEdges]
  · rename_i he; simp [List.erase_of_not_mem he]

theorem ShapeBut.deleteEdge (h : ShapeBut out s) (e : EdgeRef) : ShapeBut out (GraphEltSet.deleteEdge e s) := by
  obtain ⟨hedge, hmade, hemade, hloc, hcomp⟩ := GraphEltSet.deleteEdge_frame e s
  by_cases he : e ∈ s.completeEltSet.edges
  · refine h.erase he hcomp hloc hmade hemade hedge (fun n _ => GraphEltSet.deleteEdge_edges he n)
      fun n k hk => ?_
    rw [GraphEltSet.deleteEdge_edges he] at hk
    exact List.diff_subset _ _ hk
  · rw [GraphEltSet.deleteEdge, if_neg he]
    exact h

/-! ### In the locality -/

theorem VisibleLocality.removeEdge_ends (s : St) (e k : EdgeRef) :
    ((removeEdge s e).edge k).getFrom = (s.edge k).getFrom ∧ ((removeEdge s e).edge k).getTo = (s.edge k).getTo := by
  unfold removeEdge
  split
  · by_cases hk : k = e
    · subst hk; simp [St.setLocalEdges]
    · simp [St.setLocalEdges, hk]
  · exact ⟨rfl, rfl⟩

/-- What `VisibleLocality.removeEdge` leaves alone. -/
theorem VisibleLocality.removeEdge_frame (s : St) (e : EdgeRef) :
    (removeEdge s e).node = s.node ∧ (removeEdge s e).nodesMade = s.nodesMade ∧
      (removeEdge s e).edgesMade = s.edgesMade ∧ (removeEdge s e).globPartCnt = s.globPartCnt ∧
      (removeEdge s e).completeEltSet = s.completeEltSet ∧
      (removeEdge s e).visibleLocality = { s.visibleLocality with edges := s.visibleLocality.edges.erase e } := by
  unfold removeEdge
  split
  · simp [St.setLocalEdges]
  · rename_i he; simp [List.erase_of_not_mem he]

theorem VisibleLocality.removeEdge_visible (s : St) (e k : EdgeRef) :
    (removeEdge s e).isVisible k = (s.isVisible k && !(k == e && s.visibleLocality.edges.contains e)) := by
  unfold removeEdge
  split
  · rename_i he
    by_cases hk : k = e
    · subst hk; simp [St.isVisible, he]
    · simp [St.isVisible, St.setLocalEdges, hk]
  · rename_i he; simp [he]

theorem ShapeBut.congr (h : ShapeBut out s) (hcomp : s'.completeEltSet = s.completeEltSet)
    (hloc : (∀ n ∈ s.completeEltSet.nodes, n ∈ s'.visibleLocality.nodes) ∧ s'.visibleLocality.nodes.Nodup)
    (hmade : s'.nodesMade = s.nodesMade) (hemade : s'.edgesMade = s.edgesMade) (hnode : s'.node = s.node)
    (hends : ∀ k, (s'.edge k).getFrom = (s.edge k).getFrom ∧ (s'.edge k).getTo = (s.edge k).getTo) :
    ShapeBut out s' where
  nodes := by rw [hcomp, hmade]; exact fun n hn => ⟨(h.nodes n hn).1, hloc.1 n hn⟩
  nodup := by rw [hcomp]; exact ⟨h.nodup.1, hloc.2⟩
  edges := by
    simp only [touches_congr hends, hcomp, hemade]
    exact h.edges
  nodupEdges := by rw [hcomp]; exact h.nodupEdges
  vector := by
    rw [hcomp, hnode]
    simpa only [copies_congr hends] using h.vector
  ends := by
    simp only [touches_congr hends, hmade, hemade, hnode]
    exact h.ends

theorem ShapeBut.removeEdge (h : ShapeBut out s) (e : EdgeRef) : ShapeBut out (VisibleLocality.removeEdge s e) := by
  obtain ⟨hnode, hmade, hemade, -, hcomp, hloc⟩ := VisibleLocality.removeEdge_frame s e
  exact h.congr hcomp (by rw [hloc]; exact ⟨fun n hn => (h.nodes n hn).2, h.nodup.2⟩) hmade hemade hnode
    (VisibleLocality.removeEdge_ends s e)

theorem ShapeBut.localDeleteEdge (h : ShapeBut out s) (e : EdgeRef) :
    ShapeBut out (VisibleLocality.deleteEdge (some e) s) :=
  (h.removeEdge e).deleteEdge e

theorem Synced.deleteEdge (h : Synced s) (e : EdgeRef) : Synced (VisibleLocality.deleteEdge (some e) s) := by
  obtain ⟨-, -, -, hloc, hcomp⟩ := GraphEltSet.deleteEdge_frame e (VisibleLocality.removeEdge s e)
  obtain ⟨-, -, -, -, hcomp', hloc'⟩ := VisibleLocality.removeEdge_frame s e
  unfold Synced VisibleLocality.deleteEdge
  rw [hloc, hcomp, hcomp', hloc', h]

/-! ## Deleting a node -/

namespace GraphEltSet

/-- What the loop of `deleteNode` does with an edge at `n`. -/
theorem unlink_frame (ht : s.touches n e) :
    (unlink n e s).edge = s.edge ∧ (unlink n e s).nodesMade = s.nodesMade ∧
      (unlink n e s).edgesMade = s.edgesMade ∧ (unlink n e s).visibleLocality = s.visibleLocality ∧
      (unlink n e s).completeEltSet = { s.completeEltSet with edges := s.completeEltSet.edges.erase e } := by
  unfold unlink
  rcases ht with ht | ht
  · simp [ht, St.setCompleteEdges]
  · by_cases hf : (s.edge e).getFrom = n <;> simp [hf, ht, St.setCompleteEdges]

/-- The other end is called `Node.removeEdge` on. -/
theorem unlink_eq (ht : s.touches n e) :
    ∃ m, s.touches m e ∧ (m = n → s.copies n e = [e, e]) ∧ (∀ m', m' ≠ n → (s.touches m' e ↔ m' = m)) ∧
      unlink n e s = Node.removeEdge m e (s.setCompleteEdges (s.completeEltSet.edges.erase e)) := by
  unfold unlink
  by_cases hf : (s.edge e).getFrom = n
  · refine ⟨(s.edge e).getTo, .inr rfl, fun h => by simp [St.copies, hf, h], fun m' hm => ?_, if_pos hf⟩
    exact ⟨fun h => (h.resolve_left fun h => hm (h.symm.trans hf)).symm, fun h => .inr h.symm⟩
  · have ht : (s.edge e).getTo = n := ht.resolve_left hf
    refine ⟨(s.edge e).getFrom, .inl rfl, fun h => absurd h hf, fun m' hm => ?_, ?_⟩
    · exact ⟨fun h => (h.resolve_right fun h => hm (h.symm.trans ht)).symm, fun h => .inl h.symm⟩
    · rw [if_neg hf, if_pos ht]

theorem unlink_edges (ht : s.touches n e) (hm : m ≠ n) :
    ((unlink n e s).node m).edges = (s.node m).edges.diff (s.copies m e) := by
  obtain ⟨o, -, -, ho, heq⟩ := unlink_eq ht
  rw [heq, Node.removeEdge_edges]
  by_cases hmo : m = o
  · subst hmo
    -- only one end is `m`, the other is `n`
    have hone : s.copies m e = [e] := by
      rcases ht with ht | ht <;> rcases (ho m hm).2 rfl with ht' | ht'
      · exact absurd (ht'.symm.trans ht) hm
      · simp [St.copies, ht', ht ▸ Ne.symm hm]
      · simp [St.copies, ht', ht ▸ Ne.symm hm]
      · exact absurd (ht'.symm.trans ht) hm
    simp [hone, St.setCompleteEdges, List.diff_cons]
  · have hnone : s.copies m e = [] := St.copies_eq_nil.2 fun h => hmo ((ho m hm).1 h)
    simp [hmo, hnone, St.setCompleteEdges]

theorem unlink_own (ht : s.touches n e) :
    (s.copies n e = [e] ∧ ((unlink n e s).node n).edges = (s.node n).edges) ∨
      (s.copies n e = [e, e] ∧ ((unlink n e s).node n).edges = (s.node n).edges.erase e) := by
  obtain ⟨o, hto, hon, -, heq⟩ := unlink_eq ht
  rw [heq, Node.removeEdge_edges]
  by_cases hno : n = o
  · exact .inr ⟨hon hno.symm, by subst hno; simp [St.setCompleteEdges]⟩
  · refine .inl ⟨?_, by simp [hno, St.setCompleteEdges]⟩
    rcases ht with ht | ht <;> rcases hto with hto | hto
    · exact absurd (ht.symm.trans hto) hno
    · simp [St.copies, ht, hto, Ne.symm hno]
    · simp [St.copies, ht, hto, Ne.symm hno]
    · exact absurd (ht.symm.trans hto) hno

end GraphEltSet

/-- `deleteNode n` has taken the edges `done` away. -/
structure Unlinking (out : NodeRef → Prop) (n : NodeRef) (done : List EdgeRef) (s : St) : Prop where
  shape : ShapeBut (fun m => m = n ∨ out m) s
  own : (s.node n).edges = done ++ s.completeEltSet.edges.flatMap (s.copies n)
  gone : ∀ e ∈ done, e ∉ s.completeEltSet.edges
  notMem : n ∉ s.completeEltSet.nodes

theorem Unlinking.next {done : List EdgeRef} (h : Unlinking out n done s)
    (he : (s.node n).edges[done.length]? = some e) : e ∈ s.completeEltSet.edges ∧ s.touches n e := by
  rw [h.own, List.getElem?_append_right (Nat.le_refl _), Nat.sub_self] at he
  have hm := List.mem_of_getElem? he
  obtain ⟨k, hk, hek⟩ := List.mem_flatMap.1 hm
  obtain rfl := s.eq_of_mem_copies n k e hek
  exact ⟨hk, s.mem_copies.1 hek⟩

theorem Unlinking.step {done : List EdgeRef} (h : Unlinking out n done s)
    (he : (s.node n).edges[done.length]? = some e) : Unlinking out n (done ++ [e]) (GraphEltSet.unlink n e s) := by
  obtain ⟨hmem, ht⟩ := h.next he
  obtain ⟨hedge, hmade, hemade, hloc, hcomp⟩ := GraphEltSet.unlink_frame ht
  have hnd : e ∉ done := fun hd => h.gone e hd hmem
  have hc : (GraphEltSet.unlink n e s).copies n = s.copies n :=
    copies_congr (fun k => by rw [hedge]; exact ⟨rfl, rfl⟩) n
  -- the remaining part of the vector starts with `e`
  obtain ⟨rest, hrest⟩ : ∃ rest, s.completeEltSet.edges.flatMap (s.copies n) = e :: rest := by
    rw [h.own, List.getElem?_append_right (Nat.le_refl _), Nat.sub_self] at he
    cases hfm : s.completeEltSet.edges.flatMap (s.copies n) with
    | nil => rw [hfm] at he; cases he
    | cons k rest =>
      rw [hfm] at he
      obtain rfl : k = e := by simpa using he
      exact ⟨rest, rfl⟩
  obtain ⟨-, hsplit⟩ := flatMap_head (s.eq_of_mem_copies n) hrest
  refine ⟨h.shape.erase hmem hcomp hloc hmade hemade hedge (fun m hm => ?_) (fun m k hk => ?_), ?_, ?_, ?_⟩
  · exact GraphEltSet.unlink_edges ht fun hmn => h.notMem (hmn ▸ hm)
  · by_cases hmn : m = n
    · subst hmn
      rcases GraphEltSet.unlink_own ht with ⟨-, ho⟩ | ⟨-, ho⟩ <;> rw [ho] at hk
      · exact hk
      · exact List.mem_of_mem_erase hk
    · rw [GraphEltSet.unlink_edges ht hmn] at hk
      exact List.diff_subset _ _ hk
  · rw [hc, hcomp]
    rcases GraphEltSet.unlink_own ht with ⟨hcp, ho⟩ | ⟨hcp, ho⟩ <;> rw [ho, h.own, hsplit, hcp]
    · simp
    · simp [List.erase_append_right _ hnd]
  · rw [hcomp]
    intro k hk hke
    rcases List.mem_append.1 hk with hk | hk
    · exact h.gone k hk (List.mem_of_mem_erase hke)
    · obtain rfl := List.mem_singleton.1 hk
      exact h.shape.nodupEdges.not_mem_erase hke
  · rw [hcomp]; exact h.notMem

theorem Unlinking.length {done : List EdgeRef} (h : Unlinking out n done s)
    (he : (s.node n).edges[done.length]? = some e) :
    ((GraphEltSet.unlink n e s).node n).edges.length ≤ (s.node n).edges.length := by
  rcases GraphEltSet.unlink_own (h.next he).2 with ⟨-, ho⟩ | ⟨-, ho⟩
  · exact Nat.le_of_eq (congrArg List.length ho)
  · exact Nat.le_trans (Nat.le_of_eq (congrArg List.length ho)) (List.erase_sublist ..).length_le

/-- The rule for the loop of `deleteNode`: it ends with all edges of the node gone, and what every
round keeps holds then. -/
theorem unlinkFrom_rule {P : St → Prop}
    (hP : ∀ done s e, Unlinking out n done s → e ∈ s.completeEltSet.edges → s.touches n e → P s →
      P (GraphEltSet.unlink n e s)) :
    ∀ fuel done s, Unlinking out n done s → (s.node n).edges.length ≤ done.length + fuel → P s →
      ∃ done', Unlinking out n done' (GraphEltSet.unlinkFrom n fuel done.length s) ∧
        (∀ e ∈ (GraphEltSet.unlinkFrom n fuel done.length s).completeEltSet.edges,
          ¬(GraphEltSet.unlinkFrom n fuel done.length s).touches n e) ∧
        P (GraphEltSet.unlinkFrom n fuel done.length s) := by
  have hend : ∀ done s, Unlinking out n done s → (s.node n).edges.length ≤ done.length →
      ∀ e ∈ s.completeEltSet.edges, ¬s.touches n e := fun done s h hlen e he ht => by
    have hpos : 0 < (s.completeEltSet.edges.flatMap (s.copies n)).length :=
      List.length_pos_of_mem (List.mem_flatMap.2 ⟨e, he, s.mem_copies.2 ht⟩)
    rw [h.own, List.length_append] at hlen
    omega
  intro fuel
  induction fuel with
  | zero => exact fun done s h hlen hp => ⟨done, h, hend done s h hlen, hp⟩
  | succ fuel ih =>
    intro done s h hlen hp
    simp only [GraphEltSet.unlinkFrom]
    cases he : (s.node n).edges[done.length]? with
    | none => exact ⟨done, h, hend done s h (List.getElem?_eq_none_iff.1 he), hp⟩
    | some e =>
      have hnext := h.next he
      have := h.length he
      have := ih (done ++ [e]) _ (h.step he) (by simp only [List.length_append, List.length_singleton]; omega)
        (hP done s e h hnext.1 hnext.2 hp)
      simpa using this

/-! ### In the locality -/

theorem VisibleLocality.foldl_removeEdge (es : List EdgeRef) (s : St) :
    (es.foldl removeEdge s).node = s.node ∧ (es.foldl removeEdge s).nodesMade = s.nodesMade ∧
      (es.foldl removeEdge s).edgesMade = s.edgesMade ∧ (es.foldl removeEdge s).globPartCnt = s.globPartCnt ∧
      (es.foldl removeEdge s).completeEltSet = s.completeEltSet ∧
      (es.foldl removeEdge s).visibleLocality =
        { s.visibleLocality with edges := s.visibleLocality.edges.diff es } ∧
      ∀ k, ((es.foldl removeEdge s).edge k).getFrom = (s.edge k).getFrom ∧
        ((es.foldl removeEdge s).edge k).getTo = (s.edge k).getTo := by
  induction es generalizing s with
  | nil => simp
  | cons e es ih =>
    obtain ⟨h1, h2, h3, h4, h5, h6, h7⟩ := ih (removeEdge s e)
    obtain ⟨g1, g2, g3, g4, g5, g6⟩ := removeEdge_frame s e
    rw [List.foldl_cons, h1, h2, h3, h4, h5, h6, g1, g2, g3, g4, g5, g6]
    refine ⟨rfl, rfl, rfl, rfl, rfl, by simp [List.diff_cons], fun k => ?_⟩
    rw [(h7 k).1, (h7 k).2]
    exact removeEdge_ends s e k

theorem VisibleLocality.foldl_removeEdge_visible (es : List EdgeRef) (s : St)
    (hnd : s.visibleLocality.edges.Nodup) (k : EdgeRef) :
    (es.foldl removeEdge s).isVisible k = (s.isVisible k && !(es.contains k && s.visibleLocality.edges.contains k)) := by
  induction es generalizing s with
  | nil => simp
  | cons e es ih =>
    obtain ⟨-, -, -, -, -, g6⟩ := removeEdge_frame s e
    rw [List.foldl_cons, ih _ (by rw [g6]; exact hnd.erase e), removeEdge_visible, g6]
    by_cases hk : k = e
    · subst hk
      by_cases hm : k ∈ s.visibleLocality.edges <;> simp [hm, hnd.mem_erase_iff]
    · have hb : (k == e) = false := by simpa using hk
      simp [hk, hb, hnd.mem_erase_iff]

/-- Taking a node out of the locality: its edges become invisible. -/
structure Hidden (n : NodeRef) (s s' : St) : Prop where
  node : s'.node = s.node
  nodesMade : s'.nodesMade = s.nodesMade
  edgesMade : s'.edgesMade = s.edgesMade
  cnt : s'.globPartCnt = s.globPartCnt
  complete : s'.completeEltSet = s.completeEltSet
  localNodes : s'.visibleLocality.nodes = s.visibleLocality.nodes.erase n
  localEdges : s'.visibleLocality.edges = s.completeEltSet.edges.filter fun k => !decide (s.touches n k)
  edge : ∀ k, (s'.edge k).getFrom = (s.edge k).getFrom ∧ (s'.edge k).getTo = (s.edge k).getTo
  visible : ∀ k ∈ s.completeEltSet.edges, s'.isVisible k = (s.isVisible k && !decide (s.touches n k))

theorem ShapeBut.removeNode (h : ShapeBut out s) (hs : Synced s) (n : NodeRef)
    (hmem : ∀ k ∈ s.completeEltSet.edges, k ∈ (s.node n).edges ↔ s.touches n k)
    (hno : n ∉ s.visibleLocality.nodes → ∀ k ∈ s.completeEltSet.edges, ¬s.touches n k) :
    Hidden n s (VisibleLocality.removeNode n s) := by
  unfold VisibleLocality.removeNode
  by_cases hn : n ∈ s.visibleLocality.nodes
  · have hnd : s.visibleLocality.edges.Nodup := by rw [hs]; exact h.nodupEdges
    obtain ⟨h1, h2, h3, h4, h5, h6, h7⟩ := VisibleLocality.foldl_removeEdge (s.node n).edges
      { s with visibleLocality := s.visibleLocality.drop n (s.node n) }
    have hv := VisibleLocality.foldl_removeEdge_visible (s.node n).edges
      { s with visibleLocality := s.visibleLocality.drop n (s.node n) } hnd
    rw [if_pos hn]
    refine ⟨h1, h2, h3, h4, h5, by rw [h6]; rfl, ?_, h7, fun k hk => ?_⟩
    · rw [h6]
      refine (hnd.sdiff_eq_filter).trans ?_
      rw [hs]
      refine List.filter_congr fun k hk => ?_
      simp [hmem k hk]
    · rw [hv]
      have hl : k ∈ s.visibleLocality.edges := hs ▸ hk
      simp [GraphEltSet.drop, hl, hmem k hk, St.isVisible]
  · -- no edge ends here
    rw [if_neg hn]
    refine ⟨rfl, rfl, rfl, rfl, rfl, (List.erase_of_not_mem hn).symm, ?_, fun k => ⟨rfl, rfl⟩, fun k hk => ?_⟩
    · rw [hs, List.filter_eq_self.2 fun k hk => by simp [hno hn k hk]]
    · simp [hno hn k hk]

theorem Shape.removeNode (h : Shape s) (hs : Synced s) (n : NodeRef) :
    Hidden n s (VisibleLocality.removeNode n s) :=
  ShapeBut.removeNode h hs n (fun _ hk => h.mem_vector_iff hk) fun hn _ hk ht =>
    hn (h.nodes n (h.node_of_touches hk ht)).2

/-- The rule for `GraphEltSet.deleteNode` after the locality let the node go: the graph keeps its shape,
the edges of the node are gone, and what every round of the loop keeps holds then. -/
theorem Hidden.deleteNode_rule (hh : Hidden n s s') (h : ShapeBut out s) (hn : n ∈ s.completeEltSet.nodes)
    {P : St → Prop}
    (hP : ∀ done s e, Unlinking out n done s → e ∈ s.completeEltSet.edges → s.touches n e → P s →
      P (GraphEltSet.unlink n e s))
    (h0 : P { s' with completeEltSet := s'.completeEltSet.drop n (s'.node n) }) :
    ShapeBut out (GraphEltSet.deleteNode n s') ∧
      (∀ e ∈ (GraphEltSet.deleteNode n s').completeEltSet.edges, ¬(GraphEltSet.deleteNode n s').touches n e) ∧
      P (GraphEltSet.deleteNode n s') := by
  have herase : ∀ m, m ∈ s.completeEltSet.nodes.erase n ↔ m ≠ n ∧ m ∈ s.completeEltSet.nodes := fun m =>
    h.nodup.1.mem_erase_iff
  have hstart : Unlinking out n [] { s' with completeEltSet := s'.completeEltSet.drop n (s'.node n) } := by
    have hc : ∀ m, s'.copies m = s.copies m := copies_congr hh.edge
    have ht : ∀ m k, s'.touches m k ↔ s.touches m k := fun m k => touches_congr hh.edge
    constructor
    · constructor
      · simp only [GraphEltSet.drop, hh.complete, hh.nodesMade, hh.localNodes]
        intro m hm
        obtain ⟨hmn, hm⟩ := (herase m).1 hm
        exact ⟨(h.nodes m hm).1, h.nodup.2.mem_erase_iff.2 ⟨hmn, (h.nodes m hm).2⟩⟩
      · simp only [GraphEltSet.drop, hh.complete, hh.localNodes]
        exact ⟨h.nodup.1.erase n, h.nodup.2.erase n⟩
      · simp only [GraphEltSet.drop, hh.complete, hh.edgesMade]
        refine fun e he => ⟨(h.edges e he).1, fun m hm => ?_⟩
        by_cases hmn : m = n
        · exact .inr (.inl hmn)
        · exact ((h.edges e he).2 m ((ht m e).1 hm)).imp (fun hm => (herase m).2 ⟨hmn, hm⟩) .inr
      · simp only [GraphEltSet.drop, hh.complete]
        exact h.nodupEdges
      · simp only [GraphEltSet.drop, hh.complete, hh.node]
        intro m hm
        rw [h.vector m ((herase m).1 hm).2, ← hc m]
        rfl
      · simp only [hh.node, hh.nodesMade, hh.edgesMade]
        exact fun m e he => ⟨(h.ends m e he).1, (h.ends m e he).2.1, (ht m e).2 (h.ends m e he).2.2⟩
    · simp only [GraphEltSet.drop, hh.complete, hh.node, List.nil_append]
      rw [h.vector n hn, ← hc n]
      rfl
    · simp
    · simp only [GraphEltSet.drop, hh.complete]
      exact h.nodup.1.not_mem_erase
  rw [GraphEltSet.deleteNode, if_pos (hh.complete ▸ hn)]
  obtain ⟨done, hun, hnone, hp⟩ := unlinkFrom_rule hP (s'.node n).edges.length [] _ hstart (by simp) h0
  refine ⟨?_, hnone, hp⟩
  refine { hun.shape with edges := fun e he => ⟨(hun.shape.edges e he).1, fun m hm => ?_⟩ }
  refine ((hun.shape.edges e he).2 m hm).imp_right fun ho => ho.resolve_left fun hmn => ?_
  exact hnone e he (hmn ▸ hm)

end Topo
