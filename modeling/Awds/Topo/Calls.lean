import Awds.Lib.Run
import Awds.Topo.Update

/-!
# All calls of the panel, and what hiding an edge does

| here | there |
| --- | --- |
| `VisibleLocality.removeAll` | `VisibleLocality.removeAll` (:105) over `GraphEltSet.clearAll` (`GraphEltSet.java:346`) |
| `VisibleLocality.clearAll`  | `Locality.clearAll` (`Locality.java:198`) |
| `TGPanel.addMade`           | `TGPanel.addEdge(Edge)` (:526) of an edge made before |
| `TGPanel.hideEdge`          | `TGPanel.hideEdge` (:707) |
| `TGPanel.clearAll`          | `TGPanel.clearAll` (:462), without `updatePartitions` |

`Input` and `step` ask for fresh nodes and for ends in the graph. `Call` and `call` do not: any node and any
edge that was made may be given to any method, in any state. `Sound` is what holds even then.
-/

namespace Topo

open TGPanel

namespace VisibleLocality

/-- `removeAll`: the edges of the locality become invisible. -/
def removeAll (s : St) : St :=
  { s with
    edge := fun e => if e ∈ s.visibleLocality.edges then { s.edge e with isVisible := false } else s.edge e
    visibleLocality := {} }

def clearAll (s : St) : St := { removeAll s with completeEltSet := {} }

end VisibleLocality

namespace TGPanel

def addMade (e : EdgeRef) (s : St) : St := updatePartitions (VisibleLocality.addEdge e s)

def hideEdge (e : EdgeRef) (s : St) : St := VisibleLocality.removeEdge s e

def clearAll (s : St) : St := VisibleLocality.clearAll s

end TGPanel

/-- A call; `newNode` and `newEdge` are the constructors. -/
inductive Call where
  | newNode (id lbl : Option String)
  | newEdge (f t : NodeRef)
  | addNode (n : NodeRef)
  | addEdge (e : EdgeRef)
  | addEdgeBetween (f t : NodeRef)
  | deleteEdge (e : Option EdgeRef)
  | deleteEdgeBetween (f t : NodeRef)
  | deleteNode (n : Option NodeRef)
  | hideEdge (e : EdgeRef)
  | clearAll
deriving DecidableEq, Repr

/-- One call. What it is given was made. -/
def call (s : St) : Call → Option St
  | .newNode id lbl => some (newNode id lbl s)
  | .newEdge f t => if f < s.nodesMade ∧ t < s.nodesMade then some (newEdge f t true s) else none
  | .addNode n => if n < s.nodesMade then some (TGPanel.addNode n s).1 else none
  | .addEdge e => if e < s.edgesMade then some (addMade e s) else none
  | .addEdgeBetween f t =>
    if f < s.nodesMade ∧ t < s.nodesMade then some (TGPanel.addEdge f t s) else none
  | .deleteEdge e => some (TGPanel.deleteEdge e s)
  | .deleteEdgeBetween f t => some (TGPanel.deleteEdgeBetween f t s)
  | .deleteNode n => some (TGPanel.deleteNode n s)
  | .hideEdge e => some (TGPanel.hideEdge e s)
  | .clearAll => some (TGPanel.clearAll s)

variable {s s' t : St} {n m f : NodeRef} {e k : EdgeRef} {c : Call}

/-! ## Sound states -/

/-- The lists of the panel after any calls. -/
structure Sound (s : St) : Prop where
  ends : ∀ n, ∀ e ∈ (s.node n).edges, e < s.edgesMade ∧ s.touches n e
  made : ∀ e ∈ s.completeEltSet.edges, e < s.edgesMade
  nodup : s.completeEltSet.edges.Nodup ∧ s.visibleLocality.edges.Nodup ∧ s.completeEltSet.nodes.Nodup
  subEdges : ∀ e ∈ s.visibleLocality.edges, e ∈ s.completeEltSet.edges
  subNodes : ∀ n ∈ s.completeEltSet.nodes, n ∈ s.visibleLocality.nodes

/-- The graph holds `e`, and `updatePartitions` does not take it for an edge of its own. -/
def Shown (e : EdgeRef) (s : St) : Prop := e ∈ s.completeEltSet.edges ∧ s.isVisible e = true

theorem GraphEltSet.deleteEdge_sub (e : EdgeRef) (s : St) (n : NodeRef) :
    ∀ k ∈ ((deleteEdge e s).node n).edges, k ∈ (s.node n).edges := by
  intro k hk
  by_cases he : e ∈ s.completeEltSet.edges
  · rw [deleteEdge_edges he] at hk
    exact List.diff_subset _ _ hk
  · rwa [deleteEdge, if_neg he] at hk

theorem Sound.deleteEdge (h : Sound s) (e : EdgeRef) : Sound (VisibleLocality.deleteEdge (some e) s) := by
  obtain ⟨hcomp, hloc, -⟩ := VisibleLocality.deleteEdge_edges s e
  obtain ⟨hnode, -, hemade, -, -, -⟩ := VisibleLocality.removeEdge_frame s e
  obtain ⟨hedge, -, hemade', -, -⟩ := GraphEltSet.deleteEdge_frame e (VisibleLocality.removeEdge s e)
  have hmade : (VisibleLocality.deleteEdge (some e) s).edgesMade = s.edgesMade := hemade'.trans hemade
  have hends : ∀ k, ((VisibleLocality.deleteEdge (some e) s).edge k).getFrom = (s.edge k).getFrom ∧
      ((VisibleLocality.deleteEdge (some e) s).edge k).getTo = (s.edge k).getTo := fun k => by
    rw [VisibleLocality.deleteEdge, hedge]
    exact VisibleLocality.removeEdge_ends s e k
  constructor
  · intro n k hk
    have hk := GraphEltSet.deleteEdge_sub e _ n k hk
    rw [hnode] at hk
    rw [hmade, touches_congr hends]
    exact h.ends n k hk
  · rw [hcomp, hmade]
    exact fun k hk => h.made k (List.mem_of_mem_erase hk)
  · rw [hcomp, hloc]
    exact ⟨h.nodup.1.erase e, h.nodup.2.1.erase e, h.nodup.2.2⟩
  · rw [hcomp, hloc]
    intro k hk
    have hk := h.nodup.2.1.mem_erase_iff.1 hk
    exact h.nodup.1.mem_erase_iff.2 ⟨hk.1, h.subEdges k hk.2⟩
  · rw [hcomp, hloc]
    exact h.subNodes

theorem Shown.deleteEdge (h : Shown k s) (hke : k ≠ e) : Shown k (VisibleLocality.deleteEdge (some e) s) := by
  obtain ⟨hcomp, -, hvis⟩ := VisibleLocality.deleteEdge_edges s e
  have hb : (k == e) = false := by simpa using hke
  refine ⟨?_, by rw [hvis, h.2, hb]; rfl⟩
  rw [hcomp]
  exact (List.mem_erase_of_ne hke).2 h.1

/-! ### New edges -/

theorem Sound.newEdge (h : Sound s) (f t : NodeRef) (visible : Bool) : Sound (newEdge f t visible s) := by
  refine ⟨fun n k hk => ?_, fun k hk => Nat.lt_succ_of_lt (h.made k hk), h.nodup, h.subEdges, h.subNodes⟩
  obtain ⟨hlt, ht⟩ := h.ends n k hk
  refine ⟨Nat.lt_succ_of_lt hlt, ?_⟩
  simpa [Topo.newEdge, St.touches, Nat.ne_of_lt hlt] using ht

theorem Shown.newEdge (hs : Sound s) (h : Shown k s) (f t : NodeRef) (visible : Bool) :
    Shown k (newEdge f t visible s) := by
  refine ⟨h.1, ?_⟩
  have hlt := hs.made k h.1
  have hv := h.2
  simpa [Topo.newEdge, St.isVisible, Nat.ne_of_lt hlt] using hv

/-- `VisibleLocality.addEdge`: a no-op, an edge that comes back to the locality, or an edge for both sets. -/
theorem Sound.addEdge_cases (h : Sound s) (e : EdgeRef) :
    (e ∈ s.completeEltSet.edges ∧ VisibleLocality.addEdge e s = s) ∨
      (e ∈ s.completeEltSet.edges ∧ e ∉ s.visibleLocality.edges ∧
        VisibleLocality.addEdge e s = (s.setLocalEdges (s.visibleLocality.edges ++ [e])).countEdge e 1) ∨
      e ∉ s.completeEltSet.edges ∧ Added e s (VisibleLocality.addEdge e s) := by
  by_cases hl : e ∈ s.visibleLocality.edges
  · exact .inl ⟨h.subEdges e hl, by rw [VisibleLocality.addEdge, if_pos hl]⟩
  · by_cases hc : e ∈ s.completeEltSet.edges
    · refine .inr (.inl ⟨hc, hl, ?_⟩)
      rw [VisibleLocality.addEdge, if_neg hl]
      exact congrArg (St.countEdge · e 1) (if_pos hc)
    · exact .inr (.inr ⟨hc, VisibleLocality.addEdge_added hc hl⟩)

theorem nodup_concat {α : Type*} {l : List α} {a : α} (h : l.Nodup) (ha : a ∉ l) : (l ++ [a]).Nodup :=
  List.nodup_append.2 ⟨h, List.nodup_singleton a, fun x hx y hy => by
    rw [List.mem_singleton.1 hy]
    rintro rfl
    exact ha hx⟩

theorem Sound.addEdge (h : Sound s) (he : e < s.edgesMade) : Sound (VisibleLocality.addEdge e s) := by
  rcases h.addEdge_cases e with ⟨-, heq⟩ | ⟨hc, hl, heq⟩ | ⟨hc, ha⟩
  · rw [heq]; exact h
  · rw [heq]
    refine ⟨h.ends, h.made, ⟨h.nodup.1, nodup_concat h.nodup.2.1 hl, h.nodup.2.2⟩, fun k hk => ?_, h.subNodes⟩
    rcases List.mem_append.1 hk with hk | hk
    · exact h.subEdges k hk
    · rw [List.mem_singleton.1 hk]; exact hc
  · have hl : e ∉ s.visibleLocality.edges := fun hl => hc (h.subEdges e hl)
    constructor
    · intro n k hk
      rw [ha.edgesMade, St.touches, ha.edge]
      rw [ha.vector] at hk
      rcases List.mem_append.1 hk with hk | hk
      · exact h.ends n k hk
      · obtain rfl := s.eq_of_mem_copies n e k hk
        exact ⟨he, s.mem_copies.1 hk⟩
    · rw [ha.complete, ha.edgesMade]
      intro k hk
      rcases List.mem_append.1 hk with hk | hk
      · exact h.made k hk
      · rw [List.mem_singleton.1 hk]; exact he
    · rw [ha.complete, ha.locality]
      exact ⟨nodup_concat h.nodup.1 hc, nodup_concat h.nodup.2.1 hl, h.nodup.2.2⟩
    · rw [ha.complete, ha.locality]
      exact fun k hk => List.mem_append.2 ((List.mem_append.1 hk).imp_left (h.subEdges k))
    · rw [ha.complete, ha.locality]
      exact h.subNodes

/-- After `addEdge` the edge is in the graph, and no other has left it. -/
theorem Sound.mem_addEdge (h : Sound s) (hk : k ∈ s.completeEltSet.edges ∨ k = e) :
    k ∈ (VisibleLocality.addEdge e s).completeEltSet.edges ∧
      (VisibleLocality.addEdge e s).isVisible k = s.isVisible k := by
  rcases h.addEdge_cases e with ⟨hc, heq⟩ | ⟨hc, -, heq⟩ | ⟨-, ha⟩
  · rw [heq]
    exact ⟨hk.elim id fun hk => hk ▸ hc, rfl⟩
  · rw [heq]
    exact ⟨hk.elim id fun hk => hk ▸ hc, rfl⟩
  · rw [ha.complete, St.isVisible, ha.edge]
    exact ⟨List.mem_append.2 (hk.imp_right List.mem_singleton.2), rfl⟩

theorem Shown.addEdge (hs : Sound s) (h : Shown k s) (e : EdgeRef) : Shown k (VisibleLocality.addEdge e s) := by
  obtain ⟨hmem, hv⟩ := hs.mem_addEdge (e := e) (.inl h.1)
  exact ⟨hmem, hv.trans h.2⟩

/-! ### `updatePartitions` -/

theorem Sound.addInvisible (h : Sound s) (a b : NodeRef) :
    Sound (VisibleLocality.addEdge s.edgesMade (Topo.newEdge a b false s)) :=
  (h.newEdge a b false).addEdge (Nat.lt_succ_self _)

theorem Sound.updatePartitions (h : Sound s) : Sound (updatePartitions s) :=
  updatePartitions_rule (fun _ h => h.nodup.1) (fun _ e h _ _ => h.deleteEdge e) (fun _ a b h _ _ => h.addInvisible a b) h

/-- `updatePartitions` keeps every visible edge. -/
theorem Shown.updatePartitions (hs : Sound s) (h : Shown k s) : Shown k (updatePartitions s) := by
  refine (updatePartitions_rule (I := fun s => Sound s ∧ Shown k s) (fun s h => h.1.nodup.1) (fun s e h _ hv => ?_)
    (fun s a b h _ _ => ?_) ⟨hs, h⟩).2
  · refine ⟨h.1.deleteEdge e, h.2.deleteEdge ?_⟩
    rintro rfl
    rw [h.2.2] at hv
    cases hv
  · exact ⟨h.1.addInvisible a b, Shown.addEdge (h.1.newEdge a b false) (h.2.newEdge h.1 a b false) _⟩

/-- An invisible edge does not outlive `updatePartitions`. -/
theorem Sound.updatePartitions_drops (h : Sound s) (he : e < s.edgesMade) (hv : s.isVisible e = false) :
    e ∉ (TGPanel.updatePartitions s).completeEltSet.edges := by
  obtain ⟨⟨hs, hlt, hv'⟩, hall⟩ := removeInvisible_rule
    (I := fun s => Sound s ∧ e < s.edgesMade ∧ s.isVisible e = false) (fun s h => h.1.nodup.1)
    (fun s k h _ hk => by
      refine ⟨h.1.deleteEdge k, ?_, by rw [VisibleLocality.deleteEdge_visible hk]; exact h.2.2⟩
      have hm := (GraphEltSet.deleteEdge_frame k (VisibleLocality.removeEdge s k)).2.2.1
      rw [VisibleLocality.deleteEdge, hm, (VisibleLocality.removeEdge_frame s k).2.2.1]
      exact h.2.1) _ s ⟨h, he, hv⟩ fun k hk _ => by rwa [List.take_of_length_le (Nat.le_refl _)]
  refine (buildInvisible_rule (I := fun s => Sound s ∧ e < s.edgesMade ∧ e ∉ s.completeEltSet.edges)
    (fun s a b h _ _ => ?_) _ _ ⟨hs, hlt, fun hm => ?_⟩ (partitions_subset _)).2.2
  · have hn := h.1.newEdge a b false
    have hnew : s.edgesMade ∉ s.completeEltSet.edges := fun hm => Nat.lt_irrefl _ (h.1.made _ hm)
    have ha := VisibleLocality.addEdge_added (s := Topo.newEdge a b false s) (e := s.edgesMade) hnew
      fun hm => hnew (h.1.subEdges _ hm)
    refine ⟨h.1.addInvisible a b, by rw [ha.edgesMade]; exact Nat.lt_succ_of_lt h.2.1, ?_⟩
    rw [ha.complete]
    intro hm
    rcases List.mem_append.1 hm with hm | hm
    · exact h.2.2 hm
    · exact Nat.ne_of_lt h.2.1 (List.mem_singleton.1 hm)
  · have := hall e hm
    rw [hv'] at this
    cases this

/-! ### Nodes -/

theorem VisibleLocality.addNode_nodup (h : s.completeEltSet.nodes.Nodup) (n : NodeRef) :
    (addNode n s).1.completeEltSet.nodes.Nodup := by
  unfold addNode
  split
  · exact h
  · split
    · exact h
    · dsimp only
      split
      · exact h
      · rename_i hc
        split
        · exact h
        · rename_i hg
          obtain rfl := GraphEltSet.addNode_ok hg
          exact nodup_concat h hc

theorem Sound.addNode (h : Sound s) (n : NodeRef) : Sound (VisibleLocality.addNode n s).1 := by
  have hj := VisibleLocality.addNode_joined n s
  have ht : ∀ m k, (VisibleLocality.addNode n s).1.touches m k ↔ s.touches m k := fun m k =>
    touches_congr fun k => by rw [hj.edge]; exact ⟨rfl, rfl⟩
  constructor
  · intro m k hk
    rw [(hj.node m).2] at hk
    rw [hj.edgesMade, ht]
    exact h.ends m k hk
  · rw [hj.completeEdges, hj.edgesMade]; exact h.made
  · rw [hj.completeEdges, hj.localEdges]
    exact ⟨h.nodup.1, h.nodup.2.1, VisibleLocality.addNode_nodup h.nodup.2.2 n⟩
  · rw [hj.completeEdges, hj.localEdges]; exact h.subEdges
  · intro m hm
    have hold : m ∈ s.completeEltSet.nodes → m ∈ (VisibleLocality.addNode n s).1.visibleLocality.nodes := fun hm => by
      rcases hj.localNodes with he | ⟨-, he⟩ <;> rw [he]
      · exact h.subNodes m hm
      · exact List.mem_append_left _ (h.subNodes m hm)
    rcases hj.completeNodes with he | ⟨he, hl⟩
    · exact hold (he ▸ hm)
    · rw [he] at hm
      rcases List.mem_append.1 hm with hm | hm
      · exact hold hm
      · rw [List.mem_singleton.1 hm]; exact hl

theorem Shown.addNode (h : Shown k s) (n : NodeRef) : Shown k (VisibleLocality.addNode n s).1 := by
  have hj := VisibleLocality.addNode_joined n s
  unfold Shown St.isVisible
  rw [hj.completeEdges, hj.edge]
  exact h

/-- The loop of `deleteNode n` has come from `s` to `t`. -/
structure Loosened (n : NodeRef) (s t : St) : Prop where
  edge : t.edge = s.edge
  edgesMade : t.edgesMade = s.edgesMade
  locality : t.visibleLocality = s.visibleLocality
  nodes : t.completeEltSet.nodes = s.completeEltSet.nodes
  vector : ∀ m, ∀ k ∈ (t.node m).edges, k ∈ (s.node m).edges
  edges : t.completeEltSet.edges.Sublist s.completeEltSet.edges
  rest : ∀ k ∈ s.completeEltSet.edges, k ∉ (s.node n).edges → k ∈ t.completeEltSet.edges

theorem Loosened.unlink (h : Loosened n s t) (he : e ∈ (t.node n).edges) (ht : t.touches n e) :
    Loosened n s (GraphEltSet.unlink n e t) := by
  obtain ⟨hedge, -, hemade, hloc, hcomp⟩ := GraphEltSet.unlink_frame ht
  obtain ⟨m, -, -, -, heq⟩ := GraphEltSet.unlink_eq ht
  refine ⟨hedge.trans h.edge, hemade.trans h.edgesMade, hloc.trans h.locality, by rw [hcomp]; exact h.nodes,
    fun m' k hk => ?_, by rw [hcomp]; exact (List.erase_sublist ..).trans h.edges, fun k hk hkn => ?_⟩
  · rw [heq, Node.removeEdge_edges] at hk
    split at hk
    · rename_i hm
      subst hm
      exact h.vector m' k (List.mem_of_mem_erase hk)
    · exact h.vector m' k hk
  · rw [hcomp]
    refine (List.mem_erase_of_ne ?_).2 (h.rest k hk hkn)
    rintro rfl
    exact hkn (h.vector n k he)

theorem Loosened.unlinkFrom (hs : ∀ e ∈ (s.node n).edges, s.touches n e) : ∀ (fuel i : Nat) (t : St),
    Loosened n s t → Loosened n s (GraphEltSet.unlinkFrom n fuel i t)
  | 0, _, _, h => h
  | fuel + 1, i, t, h => by
    rw [GraphEltSet.unlinkFrom]
    cases he : (t.node n).edges[i]? with
    | none => exact h
    | some e =>
      have hmem := List.mem_of_getElem? he
      refine Loosened.unlinkFrom hs fuel (i + 1) _ (h.unlink hmem ?_)
      rw [St.touches, h.edge]
      exact hs e (h.vector n e hmem)

/-- `deleteNode` takes no edge from the graph that is not in the vector of the node. -/
structure Left (n : NodeRef) (s s' : St) : Prop where
  sound : Sound s'
  mem : ∀ k ∈ s.completeEltSet.edges, k ∉ (s.node n).edges → k ∈ s'.completeEltSet.edges
  visible : ∀ k, k ∉ (s.node n).edges → s'.isVisible k = s.isVisible k

/-- `t` is `s` without the node `n`, before the edges of `n` leave the graph. -/
theorem Sound.left (h : Sound s) (hnode : t.node = s.node) (hemade : t.edgesMade = s.edgesMade)
    (hends : ∀ k, (t.edge k).getFrom = (s.edge k).getFrom ∧ (t.edge k).getTo = (s.edge k).getTo)
    (hvis : ∀ k, k ∉ (s.node n).edges → t.isVisible k = s.isVisible k)
    (hedges : t.completeEltSet.edges = s.completeEltSet.edges)
    (hnodes : t.completeEltSet.nodes = s.completeEltSet.nodes.erase n)
    (hlnodes : t.visibleLocality.nodes = s.visibleLocality.nodes.erase n)
    (hledges : t.visibleLocality.edges = s.visibleLocality.edges.diff (s.node n).edges)
    (hl : Loosened n t s') : Left n s s' := by
  have hrest : ∀ k ∈ s.completeEltSet.edges, k ∉ (s.node n).edges → k ∈ s'.completeEltSet.edges := fun k hk hkn =>
    hl.rest k (hedges ▸ hk) (by rw [hnode]; exact hkn)
  refine ⟨⟨fun m k hk => ?_, fun k hk => ?_, ⟨?_, ?_, ?_⟩, fun k hk => ?_, fun m hm => ?_⟩, hrest, fun k hk => ?_⟩
  · have hk := hl.vector m k hk
    rw [hnode] at hk
    have ht : s'.touches m k ↔ s.touches m k := touches_congr fun k => by rw [hl.edge]; exact hends k
    rw [hl.edgesMade, hemade, ht]
    exact h.ends m k hk
  · rw [hl.edgesMade, hemade]
    exact h.made k (hedges ▸ hl.edges.subset hk)
  · exact (hedges ▸ h.nodup.1 : t.completeEltSet.edges.Nodup).sublist hl.edges
  · rw [hl.locality, hledges]
    exact h.nodup.2.1.diff
  · rw [hl.nodes, hnodes]
    exact h.nodup.2.2.erase n
  · rw [hl.locality, hledges, h.nodup.2.1.mem_sdiff_iff] at hk
    exact hrest k (h.subEdges k hk.1) hk.2
  · rw [hl.nodes, hnodes, h.nodup.2.2.mem_erase_iff] at hm
    rw [hl.locality, hlnodes]
    exact (List.mem_erase_of_ne hm.1).2 (h.subNodes m hm.2)
  · rw [← hvis k hk, St.isVisible, hl.edge]
    rfl

theorem Sound.deleteNode (h : Sound s) (n : NodeRef) : Left n s (VisibleLocality.deleteNode (some n) s) := by
  rw [VisibleLocality.deleteNode, VisibleLocality.removeNode]
  by_cases hl : n ∈ s.visibleLocality.nodes
  · rw [if_pos hl]
    obtain ⟨hnode, -, hemade, -, hcomp, hloc, hends⟩ := VisibleLocality.foldl_removeEdge (s.node n).edges
      { s with visibleLocality := s.visibleLocality.drop n (s.node n) }
    have hvis := VisibleLocality.foldl_removeEdge_visible (s.node n).edges
      { s with visibleLocality := s.visibleLocality.drop n (s.node n) } h.nodup.2.1
    generalize (s.node n).edges.foldl VisibleLocality.removeEdge
      { s with visibleLocality := s.visibleLocality.drop n (s.node n) } = u at *
    have hvis : ∀ k, k ∉ (s.node n).edges → u.isVisible k = s.isVisible k := fun k hk =>
      (hvis k).trans (by simp [hk, St.isVisible])
    rw [GraphEltSet.deleteNode]
    split
    · refine h.left (t := { u with completeEltSet := u.completeEltSet.drop n (u.node n) }) hnode hemade hends hvis
        (by rw [hcomp]; rfl) (by rw [hcomp]; rfl) (by rw [hloc]; rfl) (by rw [hloc]; rfl)
        (Loosened.unlinkFrom (fun e he => ?_) _ 0 _ ?_)
      · have he : e ∈ (s.node n).edges := hnode ▸ he
        exact (touches_congr hends).2 (h.ends n e he).2
      · exact ⟨rfl, rfl, rfl, rfl, fun _ _ hk => hk, .refl _, fun _ hk _ => hk⟩
    · rename_i hc
      rw [hcomp] at hc
      exact h.left hnode hemade hends hvis (by rw [hcomp]) (by rw [hcomp, List.erase_of_not_mem hc])
        (by rw [hloc]; rfl) (by rw [hloc]; rfl) ⟨rfl, rfl, rfl, rfl, fun _ _ hk => hk, .refl _, fun _ hk _ => hk⟩
  · rw [if_neg hl, GraphEltSet.deleteNode, if_neg fun hc => hl (h.subNodes n hc)]
    exact ⟨h, fun _ hk _ => hk, fun _ _ => rfl⟩

theorem Sound.newNode (h : Sound s) (id lbl : Option String) : Sound (newNode id lbl s) := by
  refine ⟨fun n k hk => ?_, h.made, h.nodup, h.subEdges, h.subNodes⟩
  by_cases hn : n = s.nodesMade
  · subst hn
    simp [Topo.newNode] at hk
  · have heq : (Topo.newNode id lbl s).node n = s.node n := by simp [Topo.newNode, hn]
    exact h.ends n k (heq ▸ hk)

theorem Sound.hideEdge (h : Sound s) (e : EdgeRef) : Sound (TGPanel.hideEdge e s) := by
  obtain ⟨hnode, -, hemade, -, hcomp, hloc⟩ := VisibleLocality.removeEdge_frame s e
  unfold TGPanel.hideEdge
  refine ⟨fun n k hk => ?_, by rw [hcomp, hemade]; exact h.made, ?_, fun k hk => ?_, by rw [hcomp, hloc]; exact h.subNodes⟩
  · rw [hnode] at hk
    rw [hemade, touches_congr (VisibleLocality.removeEdge_ends s e)]
    exact h.ends n k hk
  · rw [hcomp, hloc]
    exact ⟨h.nodup.1, h.nodup.2.1.erase e, h.nodup.2.2⟩
  · rw [hloc] at hk
    rw [hcomp]
    exact h.subEdges k (List.mem_of_mem_erase hk)

theorem Shown.hideEdge (h : Shown k s) (he : ¬(e = k ∧ e ∈ s.visibleLocality.edges)) :
    Shown k (TGPanel.hideEdge e s) := by
  obtain ⟨-, -, -, -, hcomp, -⟩ := VisibleLocality.removeEdge_frame s e
  refine ⟨by rw [TGPanel.hideEdge, hcomp]; exact h.1, ?_⟩
  rw [TGPanel.hideEdge, VisibleLocality.removeEdge_visible, h.2]
  by_cases hke : k = e
  · subst hke
    simpa using he
  · simp [hke]

theorem Sound.clearAll (h : Sound s) : Sound (TGPanel.clearAll s) := by
  refine ⟨fun n k hk => ?_, by simp [TGPanel.clearAll, VisibleLocality.clearAll],
    by simp [TGPanel.clearAll, VisibleLocality.clearAll, VisibleLocality.removeAll],
    by simp [TGPanel.clearAll, VisibleLocality.clearAll, VisibleLocality.removeAll],
    by simp [TGPanel.clearAll, VisibleLocality.clearAll]⟩
  obtain ⟨hlt, ht⟩ := h.ends n k hk
  refine ⟨hlt, (touches_congr fun k => ?_).2 ht⟩
  simp only [TGPanel.clearAll, VisibleLocality.clearAll, VisibleLocality.removeAll]
  split <;> exact ⟨rfl, rfl⟩

/-! ## Runs -/

theorem Sound.init : Sound init := by
  refine ⟨?_, ?_, ⟨?_, ?_, ?_⟩, ?_, ?_⟩ <;> simp [Topo.init]

theorem Sound.call (h : Sound s) (hs : call s c = some s') : Sound s' := by
  cases c with
  | newNode id lbl => cases hs; exact h.newNode id lbl
  | newEdge f t =>
    obtain ⟨-, hs⟩ := Option.ite_none_right_eq_some.1 hs
    cases hs
    exact h.newEdge f t true
  | addNode n =>
    obtain ⟨-, hs⟩ := Option.ite_none_right_eq_some.1 hs
    cases hs
    have ha := h.addNode n
    unfold TGPanel.addNode
    split
    · rename_i heq; rw [heq] at ha; exact ha.updatePartitions
    · rename_i heq; rw [heq] at ha; exact ha
  | addEdge e =>
    obtain ⟨he, hs⟩ := Option.ite_none_right_eq_some.1 hs
    cases hs
    exact (h.addEdge he).updatePartitions
  | addEdgeBetween f t =>
    obtain ⟨-, hs⟩ := Option.ite_none_right_eq_some.1 hs
    cases hs
    exact ((h.newEdge f t true).addEdge (Nat.lt_succ_self _)).updatePartitions
  | deleteEdge e =>
    cases hs
    cases e with
    | none => exact h.updatePartitions
    | some e => exact (h.deleteEdge e).updatePartitions
  | deleteEdgeBetween f t =>
    cases hs
    unfold TGPanel.deleteEdgeBetween
    cases VisibleLocality.findEdge f t s with
    | none => exact h.updatePartitions
    | some e => exact (h.deleteEdge e).updatePartitions
  | deleteNode n =>
    cases hs
    cases n with
    | none => exact h.updatePartitions
    | some n => exact (h.deleteNode n).sound.updatePartitions
  | hideEdge e => cases hs; exact h.hideEdge e
  | clearAll => cases hs; exact h.clearAll

/-- The call `c` adds `e`. -/
def Adds (s : St) (e : EdgeRef) : Call → Prop
  | .addEdge k => k = e
  | .addEdgeBetween _ _ => e = s.edgesMade
  | _ => False

/-- The call `c` is for deleting `e`, or a node at an end of `e`, or everything. -/
def Ends (e : EdgeRef) (s : St) : Call → Prop
  | .deleteEdge k => k = some e
  | .deleteEdgeBetween f t => VisibleLocality.findEdge f t s = some e
  | .deleteNode n => ∃ m, n = some m ∧ s.touches m e
  | .clearAll => True
  | _ => False

/-- The call `c` hides `e`. -/
def Hides (e : EdgeRef) (s : St) (c : Call) : Prop := c = .hideEdge e ∧ e ∈ s.visibleLocality.edges

theorem Shown.call (hs : Sound s) (h : Shown e s) (hc : call s c = some s') (hend : ¬Ends e s c) (hhide : ¬Hides e s c) :
    Shown e s' := by
  cases c with
  | newNode id lbl => cases hc; exact h
  | newEdge f t =>
    obtain ⟨-, hc⟩ := Option.ite_none_right_eq_some.1 hc
    cases hc
    exact h.newEdge hs f t true
  | addNode n =>
    obtain ⟨-, hc⟩ := Option.ite_none_right_eq_some.1 hc
    cases hc
    have ha := h.addNode n
    have hsa := hs.addNode n
    unfold TGPanel.addNode
    split
    · rename_i heq; rw [heq] at ha hsa; exact ha.updatePartitions hsa
    · rename_i heq; rw [heq] at ha; exact ha
  | addEdge k =>
    obtain ⟨hk, hc⟩ := Option.ite_none_right_eq_some.1 hc
    cases hc
    exact (h.addEdge hs k).updatePartitions (hs.addEdge hk)
  | addEdgeBetween f t =>
    obtain ⟨-, hc⟩ := Option.ite_none_right_eq_some.1 hc
    cases hc
    have hsn := hs.newEdge f t true
    exact ((h.newEdge hs f t true).addEdge hsn _).updatePartitions (hsn.addEdge (Nat.lt_succ_self _))
  | deleteEdge k =>
    cases hc
    cases k with
    | none => exact h.updatePartitions hs
    | some k => exact (h.deleteEdge fun hek => hend (hek ▸ rfl)).updatePartitions (hs.deleteEdge k)
  | deleteEdgeBetween f t =>
    cases hc
    unfold TGPanel.deleteEdgeBetween
    cases hf : VisibleLocality.findEdge f t s with
    | none => exact h.updatePartitions hs
    | some k => exact (h.deleteEdge fun hek => hend (hek ▸ hf)).updatePartitions (hs.deleteEdge k)
  | deleteNode n =>
    cases hc
    cases n with
    | none => exact h.updatePartitions hs
    | some n =>
      have hl := hs.deleteNode n
      have hn : e ∉ (s.node n).edges := fun he => hend ⟨n, rfl, (hs.ends n e he).2⟩
      exact Shown.updatePartitions hl.sound ⟨hl.mem e h.1 hn, (hl.visible e hn).trans h.2⟩
  | hideEdge k =>
    cases hc
    exact h.hideEdge fun hk => hhide ⟨by rw [hk.1], hk.1 ▸ hk.2⟩
  | clearAll => exact absurd trivial hend

theorem Sound.adds (h : Sound s) (ha : Adds s e c) (hv : c = .addEdge e → s.isVisible e = true)
    (hc : Topo.call s c = some s') : Shown e s' := by
  cases c with
  | addEdge k =>
    obtain rfl : k = e := ha
    obtain ⟨hk, hc⟩ := Option.ite_none_right_eq_some.1 hc
    cases hc
    obtain ⟨hmem, hvis⟩ := h.mem_addEdge (e := k) (.inr rfl)
    exact Shown.updatePartitions (h.addEdge hk) ⟨hmem, hvis.trans (hv rfl)⟩
  | addEdgeBetween f t =>
    obtain rfl : e = s.edgesMade := ha
    obtain ⟨-, hc⟩ := Option.ite_none_right_eq_some.1 hc
    cases hc
    have hn := h.newEdge f t true
    obtain ⟨hmem, hvis⟩ := hn.mem_addEdge (e := s.edgesMade) (.inr rfl)
    exact Shown.updatePartitions (hn.addEdge (Nat.lt_succ_self _))
      ⟨hmem, hvis.trans (by simp [St.isVisible, Topo.newEdge])⟩
  | newNode | newEdge | addNode | deleteEdge | deleteEdgeBetween | deleteNode | hideEdge | clearAll => exact ha.elim

instance (s : St) (e : EdgeRef) : (c : Call) → Decidable (Adds s e c)
  | .addEdge k => inferInstanceAs (Decidable (k = e))
  | .addEdgeBetween _ _ => inferInstanceAs (Decidable (e = s.edgesMade))
  | .newNode _ _ | .newEdge _ _ | .addNode _ | .deleteEdge _ | .deleteEdgeBetween _ _ | .deleteNode _
  | .hideEdge _ | .clearAll => inferInstanceAs (Decidable False)

instance (e : EdgeRef) (s : St) : (c : Call) → Decidable (Ends e s c)
  | .deleteEdge k => inferInstanceAs (Decidable (k = some e))
  | .deleteEdgeBetween f t => inferInstanceAs (Decidable (VisibleLocality.findEdge f t s = some e))
  | .deleteNode none => isFalse fun ⟨_, h, _⟩ => nomatch h
  | .deleteNode (some m) => decidable_of_iff (s.touches m e) (by simp [Ends])
  | .clearAll => isTrue trivial
  | .newNode _ _ | .newEdge _ _ | .addNode _ | .addEdge _ | .addEdgeBetween _ _ | .hideEdge _ =>
    inferInstanceAs (Decidable False)

instance (e : EdgeRef) (s : St) (c : Call) : Decidable (Hides e s c) := inferInstanceAs (Decidable (_ ∧ _))

/-- No call of a run is for deleting `e`. -/
def Unended (e : EdgeRef) (s : St) (c : Call) : Prop := ¬Ends e s c

/-- Nor does one hide it. -/
def Unhidden (e : EdgeRef) (s : St) (c : Call) : Prop := ¬Ends e s c ∧ ¬Hides e s c

instance (e : EdgeRef) (s : St) (c : Call) : Decidable (Unended e s c) := inferInstanceAs (Decidable (¬_))

instance (e : EdgeRef) (s : St) (c : Call) : Decidable (Unhidden e s c) := inferInstanceAs (Decidable (_ ∧ _))

/-- **An edge that is visible when it is added stays in the graph, whatever is called, until it is hidden or a
call is for deleting it, a node at an end of it, or everything.** -/
theorem added_edge_stays (h : Lts.Reach call Lts.Any init s) (ha : Adds s e c)
    (hv : c = .addEdge e → s.isVisible e = true) (hc : call s c = some s') (hr : Lts.Reach call (Unhidden e) s' t) :
    e ∈ t.completeEltSet.edges := by
  have hs : Sound s := h.invariant (I := Sound) Sound.init fun _ _ _ hi _ hc => hi.call hc
  have hst : Sound t ∧ Shown e t := hr.invariant (I := fun t => Sound t ∧ Shown e t)
    ⟨hs.call hc, hs.adds ha hv hc⟩ fun _ _ _ hi ho hc => ⟨hi.1.call hc, hi.2.call hi.1 hc ho.1 ho.2⟩
  exact hst.2.1

/-- A hidden edge of the locality does not outlive the next `updatePartitions`. -/
theorem hidden_edge_goes (h : Lts.Reach call Lts.Any init s) (he : e ∈ s.visibleLocality.edges) :
    e ∉ (updatePartitions (TGPanel.hideEdge e s)).completeEltSet.edges := by
  have hs : Sound s := h.invariant (I := Sound) Sound.init fun _ _ _ hi _ hc => hi.call hc
  have hh := hs.hideEdge e
  refine hh.updatePartitions_drops ?_ (by rw [TGPanel.hideEdge, VisibleLocality.removeEdge_visible]; simp [he])
  rw [TGPanel.hideEdge, (VisibleLocality.removeEdge_frame s e).2.2.1]
  exact hs.made e (hs.subEdges e he)

/-- Two nodes. -/
def pairCalls : List Call := [.newNode (some "1") none, .addNode 0, .newNode (some "2") none, .addNode 1]

theorem pairCalls_possible : (Lts.execOk call Lts.Any init pairCalls).isSome = true := by decide +kernel

/-- An edge joins the two nodes. -/
def pairState : St := TGPanel.addEdge 0 1 ((Lts.execOk call Lts.Any init pairCalls).get pairCalls_possible)

theorem added_edge_stays_addNode :
    1 ∈ ((Lts.execOk call (Unhidden 1) pairState [.newNode (some "3") none, .addNode 2]).get
      (by decide +kernel)).completeEltSet.edges :=
  added_edge_stays (c := .addEdgeBetween 0 1) (Lts.reach_get pairCalls pairCalls_possible) (by decide +kernel)
    (fun h => nomatch h) rfl (Lts.reach_get _ _)

/-- The edge is hidden, and a node added. -/
def hideCalls : List Call := [.hideEdge 1, .newNode (some "3") none, .addNode 2]

theorem hideCalls_possible : (Lts.execOk call (Unended 1) pairState hideCalls).isSome = true := by decide +kernel

/-- The next call deletes a hidden edge. -/
theorem hidden_edge_lost : ¬∀ (s s' t : St) (e : EdgeRef) (c : Call), Lts.Reach call Lts.Any init s → Adds s e c →
    call s c = some s' → Lts.Reach call (Unended e) s' t → e ∈ t.completeEltSet.edges := by
  intro hall
  have hmem := hall _ _ _ 1 (.addEdgeBetween 0 1) (Lts.reach_get pairCalls pairCalls_possible) (by decide +kernel) rfl
    (Lts.reach_get hideCalls hideCalls_possible)
  exact absurd hmem (by decide +kernel)

end Topo
