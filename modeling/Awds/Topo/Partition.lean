import Awds.Topo.Update
import Awds.Lib.Run

/-!
# Partition IDs over runs of calls

`Node.addEdge` relabels only the neighbours of the second end and `Node.removeEdge` draws a new ID only for
a node that loses its last edge. `Keeps` says when that is enough; `partition_ids_exact` is the run lemma, and
`bridge_keeps_partition` a run that breaks it.
-/

namespace Topo

open TGPanel

variable {s s' : St} {n m f t a b : NodeRef} {e k : EdgeRef}

/-- What the IDs and the invisible edges are for. -/
structure Partitioned (s : St) : Prop extends Spanned s where
  partID : ∀ a ∈ s.completeEltSet.nodes, ∀ b ∈ s.completeEltSet.nodes,
    ((s.node a).partID = (s.node b).partID ↔ s.Conn a b)

theorem Good.partitioned (h : Good s) : Partitioned s where
  toSpanned := h.spanned
  partID := fun a ha b hb => h.exact.iff a b ⟨(h.shape.nodes a ha).1, .inl ha⟩ ⟨(h.shape.nodes b hb).1, .inl hb⟩

/-! ## The condition -/

/-- `glob_part_cnt` does not wrap around in this call, however many edges it takes away. -/
def Room (s : St) : Prop := s.cost + 2 ≤ 2 ^ 32

/-- `addEdge f t`: the ends are connected, or `t` has no visible edge, or the first visible edge at `t` comes
from `t` and all of its component are neighbours of `t`, or it comes from a neighbour and `f` is alone. -/
def JoinOk (s : St) (f t : NodeRef) : Prop :=
  s.Conn f t ∨ match (s.node t).edges.find? s.isVisible with
    | none => True
    | some g => if (s.edge g).getFrom = t then ∀ m, s.Conn t m → m = t ∨ s.Adj t m else ∀ m, s.Conn f m → m = f

/-- `deleteEdge e` of a visible edge: its ends stay connected, or one of them keeps no visible edge. -/
def CutOk (s : St) (e : EdgeRef) : Prop :=
  e ∈ s.completeEltSet.edges → s.isVisible e = true →
    Graph.Connected (s.AdjOn (s.completeEltSet.edges.erase e)) (s.edge e).getFrom (s.edge e).getTo ∨
      (∀ c, ¬s.AdjOn (s.completeEltSet.edges.erase e) (s.edge e).getFrom c) ∨
      ∀ c, ¬s.AdjOn (s.completeEltSet.edges.erase e) (s.edge e).getTo c

/-- The edges that `deleteNode n` leaves. -/
def St.edgesOff (s : St) (n : NodeRef) : List EdgeRef := s.completeEltSet.edges.filter fun k => !decide (s.touches n k)

/-- `deleteNode n`: nodes that were connected and keep visible edges stay connected. -/
def DropOk (s : St) (n : NodeRef) : Prop :=
  n ∈ s.completeEltSet.nodes → ∀ a b, a ≠ n → b ≠ n → s.Conn a b → (∃ c, s.AdjOn (s.edgesOff n) a c) →
    (∃ c, s.AdjOn (s.edgesOff n) b c) → Graph.Connected (s.AdjOn (s.edgesOff n)) a b

/-- The calls that keep the IDs exact. -/
def Keeps (s : St) : Input → Prop
  | .newNode _ _ => Room s
  | .addNode _ => Room s
  | .addEdge f t => Room s ∧ JoinOk s f t
  | .deleteEdge e => Room s ∧ ∀ k, e = some k → CutOk s k
  | .deleteEdgeBetween f t => Room s ∧ ∀ k, VisibleLocality.findEdge f t s = some k → CutOk s k
  | .deleteNode n => Room s ∧ ∀ v, n = some v → DropOk s v

/-! ## Nodes -/

theorem Exact.congr (h : Exact s) (hpart : ∀ m, (s'.node m).partID = (s.node m).partID)
    (hmade : s'.nodesMade = s.nodesMade) (hcnt : s'.globPartCnt = s.globPartCnt)
    (hlive : ∀ m, Live s' m → Live s m) (hadj : s'.Adj = s.Adj) : Exact s' where
  iff := fun a b ha hb => by
    rw [hpart, hpart, St.Conn, hadj]
    exact h.iff a b (hlive a ha) (hlive b hb)
  drawn := fun n hn => by
    rw [hpart, hcnt]
    exact h.drawn n (hmade ▸ hn)

theorem Good.draining (h : Good s) (hr : s.cost ≤ 2 ^ 32) : Draining s := ⟨h.exact.coherent h.shape, hr⟩

theorem Good.newNode (h : Good s) (hr : Room s) (id lbl : Option String) : Good (newNode id lbl s) := by
  have hroom : s.globPartCnt < 2 ^ 32 := by
    simp only [Room, St.cost] at hr
    omega
  have hold : ∀ n, n ≠ s.nodesMade → (Topo.newNode id lbl s).node n = s.node n := fun n hn => by
    simp [Topo.newNode, hn]
  have hpart : ((Topo.newNode id lbl s).node s.nodesMade).partID = partIDOf s.globPartCnt := by
    simp [Topo.newNode]
  have hnew : ∀ m, m < s.nodesMade → (s.node m).partID ≠ partIDOf s.globPartCnt := fun m hm heq => by
    obtain ⟨k, hk, hp⟩ := h.exact.drawn m hm
    exact Nat.ne_of_lt hk (partIDOf_inj (Nat.lt_trans hk hroom) hroom (hp.symm.trans heq))
  -- no edge ends at the new node
  have halone : ∀ b, s.Conn s.nodesMade b → b = s.nodesMade := fun b hb =>
    Graph.eq_of_isolated (fun c hc => absurd (h.shape.nodes _ (h.shape.adj_mem hc).1).1 (Nat.lt_irrefl _)) hb
  have hlive : ∀ m, m ≠ s.nodesMade → Live (Topo.newNode id lbl s) m → Live s m := by
    rintro m hm ⟨h1, h2⟩
    rw [hold m hm] at h2
    exact ⟨Nat.lt_of_le_of_ne (Nat.le_of_lt_succ h1) hm, h2⟩
  refine ⟨h.shape.newNode id lbl, h.synced, ⟨fun a b ha hb => ?_, fun n hn => ?_⟩, ⟨h.spanned.count, h.spanned.whole⟩⟩
  · change _ ↔ s.Conn a b
    by_cases han : a = s.nodesMade <;> by_cases hbn : b = s.nodesMade
    · rw [han, hbn]; exact iff_of_true rfl (.refl _)
    · rw [han, hpart, hold b hbn]
      exact iff_of_false (fun he => hnew b (hlive b hbn hb).1 he.symm) fun hc => hbn (halone b hc)
    · rw [hbn, hpart, hold a han]
      exact iff_of_false (hnew a (hlive a han ha).1) fun hc => han (halone a (hc.symm s.adj_symm))
    · rw [hold a han, hold b hbn]
      exact h.exact.iff a b (hlive a han ha) (hlive b hbn hb)
  · by_cases hnn : n = s.nodesMade
    · exact ⟨s.globPartCnt, Nat.lt_succ_self _, by rw [hnn]; exact hpart⟩
    · obtain ⟨k, hk, hp⟩ := h.exact.drawn n (Nat.lt_of_le_of_ne (Nat.le_of_lt_succ hn) hnn)
      exact ⟨k, Nat.lt_succ_of_lt hk, by rw [hold n hnn]; exact hp⟩

/-- A call that throws adds the node to no graph. -/
theorem VisibleLocality.addNode_thrown {x : Thrown} (h : (addNode n s).2 = some x) :
    (addNode n s).1.completeEltSet = s.completeEltSet := by
  unfold addNode at h ⊢
  split at h
  · cases h
  · rename_i hn
    rw [if_neg hn]
    split at h
    · rfl
    · dsimp only at h ⊢
      split at h
      · cases h
      · rename_i hc
        rw [if_neg hc]
        split at h
        · rfl
        · cases h

theorem Joined.adj (hj : Joined n s s') : s'.Adj = s.Adj :=
  St.adj_congr hj.completeEdges (fun k _ => by rw [St.isVisible, St.isVisible, hj.edge])
    fun k => by rw [hj.edge]; exact ⟨rfl, rfl⟩

theorem Joined.exact (hj : Joined n s s') (h : Exact s) (hf : Fresh s n) : Exact s' := by
  refine h.congr (fun m => (hj.node m).1) hj.nodesMade hj.cnt (fun m hm => ?_) hj.adj
  unfold Live at hm ⊢
  rw [hj.nodesMade, (hj.node m).2] at hm
  refine ⟨hm.1, ?_⟩
  rcases hm.2 with hm | hm
  · rcases hj.completeNodes with he | ⟨he, -⟩ <;> rw [he] at hm
    · exact .inl hm
    · refine (List.mem_append.1 hm).imp id fun h => ?_
      rw [List.mem_singleton.1 h]
      exact hf.2.2
  · exact .inr hm

theorem Good.addNode (h : Good s) (hr : Room s) (hf : Fresh s n) : Good (TGPanel.addNode n s).1 := by
  have hj := VisibleLocality.addNode_joined n s
  have hs := hj.shape h.shape hf
  have hy : Synced (VisibleLocality.addNode n s).1 := by rw [Synced, hj.localEdges, hj.completeEdges]; exact h.synced
  have he := hj.exact h.exact hf
  have hcost : (VisibleLocality.addNode n s).1.cost ≤ 2 ^ 32 := by
    simp only [Room, St.cost, hj.cnt, hj.completeEdges] at hr ⊢
    omega
  have hthrown := @VisibleLocality.addNode_thrown s n
  unfold TGPanel.addNode
  generalize VisibleLocality.addNode n s = r at *
  obtain ⟨s1, _ | x⟩ := r
  · exact updatePartitions_good hs hy ⟨he.coherent hs, hcost⟩
  · have hc : s1.completeEltSet = s.completeEltSet := hthrown rfl
    have hedge : s1.edge = s.edge := hj.edge
    refine ⟨hs, hy, he, ⟨?_, ?_⟩⟩
    · rw [hj.adj, hc]
      simpa only [St.isVisible, hedge] using h.spanned.count
    · have hl : s1.Linked = s.Linked := by
        ext a b
        simp only [St.Linked, St.joins, hc, hedge]
      rw [hc, hl]
      exact h.spanned.whole

/-! ### The ID of a node without ID -/

theorem index_injective {label : String} {i j : Nat} (h : label ++ "-" ++ toString i = label ++ "-" ++ toString j) : i = j := by
  have h := congrArg String.toList h
  simp only [String.toList_append, List.append_assoc, List.append_cancel_left_eq] at h
  exact Nat.repr_injective (String.toList_inj.1 h)

theorem freeIndex_or (g : GraphEltSet) (label : String) : ∀ fuel i,
    (g.findNode (label ++ "-" ++ toString (g.freeIndex label fuel i))).isNone = true ∨
      ∀ j, i ≤ j → j < i + fuel → (g.findNode (label ++ "-" ++ toString j)).isSome = true
  | 0, i => .inr fun j h1 h2 => absurd h2 (by omega)
  | fuel + 1, i => by
    unfold GraphEltSet.freeIndex
    split
    · rename_i hi
      refine (freeIndex_or g label fuel (i + 1)).imp id fun h j h1 h2 => ?_
      by_cases hj : j = i
      · rw [hj]; exact hi
      · exact h j (by omega) (by omega)
    · rename_i hi; exact .inl (by simpa using hi)

/-- The index that `addNode` finds is free: the registry has fewer IDs than there are indices to try. -/
theorem freeIndex_free (g : GraphEltSet) (label : String) :
    (g.findNode (label ++ "-" ++ toString (g.freeIndex label (g.nodeIDRegistry.length + 1) 1))).isNone = true := by
  refine (freeIndex_or g label _ 1).resolve_right fun hall => ?_
  let ids := (List.range (g.nodeIDRegistry.length + 1)).map fun i => label ++ "-" ++ toString (i + 1)
  have hnd : ids.Nodup := List.nodup_range.map fun i j h => by simpa using index_injective h
  have hsub : ids ⊆ g.nodeIDRegistry.map Prod.fst := by
    intro id hid
    obtain ⟨i, hi, rfl⟩ := List.mem_map.1 hid
    obtain ⟨n, hn⟩ := Option.isSome_iff_exists.1 (hall (i + 1) (by omega) (by have := List.mem_range.1 hi; omega))
    obtain ⟨l1, l2, hl, -⟩ := List.lookup_eq_some_iff.1 hn
    rw [hl]
    simp
  have := (hnd.subperm hsub).length_le
  simp [ids] at this

/-! ## Deleting an edge -/

theorem Good.update (h : Good s) (hr : Room s) : Good (updatePartitions s) :=
  updatePartitions_good h.shape h.synced (h.draining (Nat.le_trans (Nat.le_add_right _ _) hr))

/-- Only edges of `es` stay visible, and nothing else changes but what nodes there are. -/
structure Fades (s s' : St) (es : List EdgeRef) : Prop where
  node : s'.node = s.node
  nodesMade : s'.nodesMade = s.nodesMade
  cnt : s'.globPartCnt = s.globPartCnt
  edges : s'.completeEltSet.edges = s.completeEltSet.edges
  ends : ∀ k, (s'.edge k).getFrom = (s.edge k).getFrom ∧ (s'.edge k).getTo = (s.edge k).getTo
  sub : ∀ k ∈ es, k ∈ s.completeEltSet.edges
  visible : ∀ k ∈ s.completeEltSet.edges, (s'.isVisible k = true ↔ s.isVisible k = true ∧ k ∈ es)

section Fades

variable {es : List EdgeRef}

theorem Fades.adj (hf : Fades s s' es) : s'.Adj = s.AdjOn es := by
  ext a b
  unfold St.Adj St.AdjOn
  rw [hf.edges]
  constructor
  · rintro ⟨k, hk, hkv, hj⟩
    obtain ⟨hkv, hkes⟩ := (hf.visible k hk).1 hkv
    exact ⟨k, hkes, hkv, by simpa only [St.joins, hf.ends] using hj⟩
  · rintro ⟨k, hk, hkv, hj⟩
    exact ⟨k, hf.sub k hk, (hf.visible k (hf.sub k hk)).2 ⟨hkv, hk⟩, by simpa only [St.joins, hf.ends] using hj⟩

/-- A node that has edges, but none that stays visible, is stale. -/
theorem Fades.stale (hf : Fades s s' es) (h : Shape s) (ha : a ∈ s.completeEltSet.nodes) (hedges : (s.node a).edges ≠ [])
    (hno : ¬∃ c, s.AdjOn es a c) : Stale s' a := by
  rw [Stale, hf.node]
  refine ⟨hedges, fun k hk => ?_⟩
  obtain ⟨hkm, hkt⟩ := (h.mem_vector ha).1 hk
  by_contra hkv
  obtain ⟨hkv, hkes⟩ := (hf.visible k hkm).1 (by simpa using hkv)
  rcases hkt with rfl | rfl
  · exact hno ⟨_, k, hkes, hkv, .inl ⟨rfl, rfl⟩⟩
  · exact hno ⟨_, k, hkes, hkv, .inr ⟨rfl, rfl⟩⟩

/-- The IDs stay coherent, if nodes that have come apart are stale. -/
theorem Good.fades (h : Good s) (hf : Fades s s' es) (hlive : ∀ m, Live s' m → Live s m)
    (hapart : ∀ a b, Live s' a → Live s' b → s.Conn a b →
      Graph.Connected (s.AdjOn es) a b ∨ Stale s' a ∨ Stale s' b) : Coherent s' := by
  refine ⟨fun a b hab => ?_, fun a b ha hb hp => ?_, ?_, fun k hk hkv m ht => ?_⟩
  · rw [hf.adj] at hab
    obtain ⟨k, hk, hkv, hj⟩ := hab
    rw [hf.node]
    exact (h.exact.coherent h.shape).same a b ⟨k, hf.sub k hk, hkv, hj⟩
  · rw [hf.node] at hp
    rw [St.Conn, hf.adj]
    exact hapart a b ha hb ((h.exact.iff a b (hlive a ha) (hlive b hb)).1 hp)
  · simpa only [Drawn, hf.node, hf.nodesMade, hf.cnt] using h.exact.drawn
  · rw [hf.edges] at hk
    rw [hf.node]
    exact (h.shape.mem_vector_iff hk).2 ((touches_congr hf.ends).1 ht)

end Fades

theorem Good.removeEdge_fades (h : Good s) (he : e ∈ s.completeEltSet.edges) :
    Fades s (VisibleLocality.removeEdge s e) (s.completeEltSet.edges.erase e) := by
  obtain ⟨hnode, hmade, -, hcnt, hcomp, -⟩ := VisibleLocality.removeEdge_frame s e
  have hl : s.visibleLocality.edges.contains e = true := by
    rw [h.synced]
    simpa using he
  refine ⟨hnode, hmade, hcnt, by rw [hcomp], VisibleLocality.removeEdge_ends s e, fun k hk => List.mem_of_mem_erase hk,
    fun k hk => ?_⟩
  rw [VisibleLocality.removeEdge_visible, hl, h.shape.nodupEdges.mem_erase_iff]
  simp [hk]

/-- The visible edge `e` becomes invisible. -/
theorem Good.cut (h : Good s) (he : e ∈ s.completeEltSet.edges) (hv : s.isVisible e = true) (hcut : CutOk s e) :
    Coherent (VisibleLocality.removeEdge s e) := by
  obtain ⟨hnode, hmade, -, -, hcomp, -⟩ := VisibleLocality.removeEdge_frame s e
  have hf := h.removeEdge_fades he
  have hd : ∀ a b, s.Adj a b → s.AdjOn (s.completeEltSet.edges.erase e) a b ∨ s.joins e a b := by
    rintro a b ⟨k, hk, hkv, hj⟩
    by_cases hke : k = e
    · exact .inr (hke ▸ hj)
    · exact .inl ⟨k, (List.mem_erase_of_ne hke).2 hk, hkv, hj⟩
  -- an end without another visible edge is stale now
  have hstale : ∀ x, s.touches x e → (∀ c, ¬s.AdjOn (s.completeEltSet.edges.erase e) x c) →
      Stale (VisibleLocality.removeEdge s e) x := by
    intro x hx hno
    have hm := (h.shape.mem_vector_iff he).2 hx
    exact hf.stale h.shape (h.shape.node_of_touches he hx) (List.ne_nil_of_mem hm) fun hex => hno _ hex.choose_spec
  have hleaf : ∀ x y, s.touches x e → (∀ a b, s.joins e a b → (a = x ∧ b = y) ∨ (a = y ∧ b = x)) →
      (∀ c, ¬s.AdjOn (s.completeEltSet.edges.erase e) x c) → ∀ a b, s.Conn a b →
      Graph.Connected (s.AdjOn (s.completeEltSet.edges.erase e)) a b ∨
        Stale (VisibleLocality.removeEdge s e) a ∨ Stale (VisibleLocality.removeEdge s e) b := by
    intro x y hx hxy hno a b hc
    by_cases ha : a = x
    · exact .inr (.inl (ha ▸ hstale x hx hno))
    · by_cases hb : b = x
      · exact .inr (.inr (hb ▸ hstale x hx hno))
      · exact .inl (Graph.connected_of_leaf (fun c => ⟨hno c, fun hc => hno c hc.symm⟩)
          (fun a b hab => (hd a b hab).imp id (hxy a b)) hc ha hb)
  refine h.fades hf (fun m hm => ?_) fun a b _ _ hc => ?_
  · simpa only [Live, hnode, hmade, hcomp] using hm
  · rcases hcut he hv with hft | hno | hno
    · refine .inl (Graph.connected_of_detour (fun a b hab => ?_) hc)
      rcases hd a b hab with hab | ⟨rfl, rfl⟩ | ⟨rfl, rfl⟩
      · exact .of_adj hab
      · exact hft
      · exact hft.symm fun _ _ h => h.symm
    · exact hleaf _ (s.edge e).getTo (.inl rfl) (fun a b hj => hj.imp (And.imp Eq.symm Eq.symm) fun h => ⟨h.2.symm, h.1.symm⟩)
        hno a b hc
    · exact hleaf _ (s.edge e).getFrom (.inr rfl) (fun a b hj => hj.symm.imp (fun h => ⟨h.2.symm, h.1.symm⟩)
        (And.imp Eq.symm Eq.symm)) hno a b hc

theorem Good.deleteEdge (h : Good s) (hr : Room s) {e : Option EdgeRef} (hcut : ∀ k, e = some k → CutOk s k) :
    Good (TGPanel.deleteEdge e s) := by
  unfold TGPanel.deleteEdge
  cases e with
  | none => exact h.update hr
  | some e =>
    by_cases he : e ∈ s.completeEltSet.edges
    · have hroom : s.cost ≤ 2 ^ 32 := Nat.le_trans (Nat.le_add_right _ _) hr
      obtain ⟨-, -, -, hcnt, hcomp, -⟩ := VisibleLocality.removeEdge_frame s e
      have hd : Draining (VisibleLocality.removeEdge s e) := by
        by_cases hv : s.isVisible e = true
        · exact ⟨h.cut he hv (hcut e rfl), by simpa only [St.cost, hcnt, hcomp] using hroom⟩
        · exact (h.draining hroom).removeEdge (by simpa using hv)
      have hv : (VisibleLocality.removeEdge s e).isVisible e = false := by
        have hl : s.visibleLocality.edges.contains e = true := by rw [h.synced]; simpa using he
        rw [VisibleLocality.removeEdge_visible, hl]
        simp
      exact updatePartitions_good (h.shape.localDeleteEdge e) (h.synced.deleteEdge e)
        (hd.deleteEdge (ShapeBut.removeEdge h.shape e) hv)
    · have hl : e ∉ s.visibleLocality.edges := by rw [h.synced]; exact he
      have heq : VisibleLocality.deleteEdge (some e) s = s := by
        rw [VisibleLocality.deleteEdge, VisibleLocality.removeEdge, if_neg hl, GraphEltSet.deleteEdge, if_neg he]
      rw [heq]
      exact h.update hr

/-! ## Deleting a node -/

/-- `n` is no longer in the graph and its edges are invisible. -/
structure Hidden.Left (n : NodeRef) (s s' : St) : Prop where
  node : s'.node = s.node
  nodesMade : s'.nodesMade = s.nodesMade
  cnt : s'.globPartCnt = s.globPartCnt
  nodes : s'.completeEltSet.nodes = s.completeEltSet.nodes.erase n
  edges : s'.completeEltSet.edges = s.completeEltSet.edges
  ends : ∀ k, (s'.edge k).getFrom = (s.edge k).getFrom ∧ (s'.edge k).getTo = (s.edge k).getTo
  visible : ∀ k ∈ s.completeEltSet.edges, (s'.isVisible k = true ↔ s.isVisible k = true ∧ ¬s.touches n k)

theorem Hidden.left (hh : Hidden n s s') :
    Hidden.Left n s { s' with completeEltSet := s'.completeEltSet.drop n (s'.node n) } where
  node := hh.node
  nodesMade := hh.nodesMade
  cnt := hh.cnt
  nodes := by rw [← hh.complete]; rfl
  edges := by rw [← hh.complete]; rfl
  ends := hh.edge
  visible := fun k hk => by
    have hv := hh.visible k hk
    rw [St.isVisible] at hv
    rw [St.isVisible, hv]
    simp

theorem Hidden.Left.fades (hl : Hidden.Left n s s') : Fades s s' (s.edgesOff n) := by
  refine ⟨hl.node, hl.nodesMade, hl.cnt, hl.edges, hl.ends, fun k hk => (List.mem_filter.1 hk).1, fun k hk => ?_⟩
  rw [hl.visible k hk, St.edgesOff, List.mem_filter]
  simp [hk]

/-- The visible edges at `n` become invisible and `n` leaves the graph. -/
theorem Good.hide (h : Good s) (hn : n ∈ s.completeEltSet.nodes) (hdrop : DropOk s n)
    (hl : Hidden.Left n s s') : Coherent s' := by
  have hf := hl.fades
  -- without edges a node is alone
  have halone : ∀ a, (s.node a).edges = [] → ∀ b, s.Conn a b → b = a := by
    intro a ha b hc
    refine Graph.eq_of_isolated ?_ hc
    rintro c ⟨k, hk, -, hj⟩
    have hmem := (h.shape.mem_vector_iff hk).2 (St.joins_touches hj).1
    rw [ha] at hmem
    cases hmem
  have hlive : ∀ m, Live s' m → Live s m ∧ (m = n → (s.node m).edges = []) := by
    rintro m ⟨h1, h2⟩
    rw [hl.nodes, h.shape.nodup.1.mem_erase_iff, hl.node] at h2
    rw [hl.nodesMade] at h1
    exact ⟨⟨h1, h2.imp And.right id⟩, fun hm => h2.resolve_left fun h => h.1 hm⟩
  refine h.fades hf (fun m hm => (hlive m hm).1) fun a b ha hb hc => ?_
  obtain ⟨hla, hna⟩ := hlive a ha
  obtain ⟨hlb, hnb⟩ := hlive b hb
  by_cases hea : (s.node a).edges = []
  · rw [halone a hea b hc]; exact .inl (.refl _)
  · by_cases heb : (s.node b).edges = []
    · rw [halone b heb a (hc.symm s.adj_symm)]; exact .inl (.refl _)
    · by_cases hka : ∃ c, s.AdjOn (s.edgesOff n) a c
      · by_cases hkb : ∃ c, s.AdjOn (s.edgesOff n) b c
        · exact .inl (hdrop hn a b (fun he => hea (hna he)) (fun he => heb (hnb he)) hc hka hkb)
        · exact .inr (.inr (hf.stale h.shape (hlb.2.resolve_right heb) heb hkb))
      · exact .inr (.inl (hf.stale h.shape (hla.2.resolve_right hea) hea hka))

/-- The loop of `deleteNode n`, seen from the state `s` before the call. -/
structure Dropping (n : NodeRef) (s t : St) : Prop where
  draining : Draining t
  invisible : ∀ e ∈ t.completeEltSet.edges, s.touches n e → t.isVisible e = false
  ends : ∀ k, (t.edge k).getFrom = (s.edge k).getFrom ∧ (t.edge k).getTo = (s.edge k).getTo
  localEdges : t.visibleLocality.edges = s.edgesOff n
  edges : t.completeEltSet.edges.filter (fun k => !decide (s.touches n k)) = s.edgesOff n

theorem Dropping.unlink {done : List EdgeRef} (h : Dropping n s s') (hu : Unlinking (fun _ => False) n done s')
    (he : e ∈ s'.completeEltSet.edges) (ht : s'.touches n e) : Dropping n s (GraphEltSet.unlink n e s') := by
  obtain ⟨hedge, -, -, hloc, hcomp⟩ := GraphEltSet.unlink_frame ht
  have hts := (touches_congr h.ends).1 ht
  refine ⟨h.draining.unlink hu he ht (h.invisible e he hts), fun k hk hkt => ?_, fun k => by rw [hedge]; exact h.ends k,
    by rw [hloc]; exact h.localEdges, ?_⟩
  · rw [hcomp] at hk
    rw [St.isVisible, hedge]
    exact h.invisible k (List.mem_of_mem_erase hk) hkt
  · rw [hcomp, ← h.edges, hu.shape.nodupEdges.erase_eq_filter, List.filter_filter]
    refine List.filter_congr fun k _ => ?_
    by_cases hke : k = e
    · subst hke; simp [hts]
    · simp [hke]

theorem Good.deleteNode (h : Good s) (hr : Room s) {n : Option NodeRef} (hdrop : ∀ v, n = some v → DropOk s v) :
    Good (TGPanel.deleteNode n s) := by
  unfold TGPanel.deleteNode
  cases n with
  | none => exact h.update hr
  | some v =>
    have hh := h.shape.removeNode h.synced v
    have hroom : s.cost ≤ 2 ^ 32 := Nat.le_trans (Nat.le_add_right _ _) hr
    have hcost : (VisibleLocality.removeNode v s).cost = s.cost := by simp only [St.cost, hh.cnt, hh.complete]
    rw [VisibleLocality.deleteNode]
    by_cases hv : v ∈ s.completeEltSet.nodes
    · have hl := hh.left
      obtain ⟨hs, hnone, hd⟩ := hh.deleteNode_rule h.shape hv (P := Dropping v s)
        (fun done t e hu he ht hd => hd.unlink hu he ht)
        ⟨⟨h.hide hv (hdrop v rfl) hl, by rw [← hcost] at hroom; exact hroom⟩, fun e he ht => by
          rw [hl.edges] at he
          exact Bool.eq_false_iff.2 fun hev => ((hl.visible e he).1 hev).2 ht, hl.ends, hh.localEdges,
          by rw [hl.edges]; rfl⟩
      refine updatePartitions_good hs ?_ hd.draining
      rw [Synced, hd.localEdges, ← hd.edges, List.filter_eq_self]
      intro e he
      simpa using fun ht => hnone e he ((touches_congr hd.ends).2 ht)
    · -- the node is at most in the locality, and no edge ends there
      have hno : ∀ k ∈ s.completeEltSet.edges, ¬s.touches v k := fun k hk ht => hv (h.shape.node_of_touches hk ht)
      have hs : Shape (VisibleLocality.removeNode v s) := h.shape.congr hh.complete
        (by
          rw [hh.localNodes]
          refine ⟨fun m hm => (List.mem_erase_of_ne ?_).2 (h.shape.nodes m hm).2, h.shape.nodup.2.erase v⟩
          rintro rfl
          exact hv hm) hh.nodesMade hh.edgesMade hh.node hh.edge
      have he : Exact (VisibleLocality.removeNode v s) := h.exact.congr (fun m => by rw [hh.node]) hh.nodesMade hh.cnt
        (fun m hm => by simpa only [Live, hh.node, hh.nodesMade, hh.complete] using hm)
        (St.adj_congr (by rw [hh.complete]) (fun k hk => by rw [hh.visible k hk]; simp [hno k hk]) hh.edge)
      rw [GraphEltSet.deleteNode, if_neg (by rw [hh.complete]; exact hv)]
      refine updatePartitions_good hs ?_ ⟨he.coherent hs, by rw [hcost]; exact hroom⟩
      rw [Synced, hh.localEdges, hh.complete, List.filter_eq_self]
      exact fun k hk => by simp [hno k hk]

/-! ## Adding an edge -/

theorem Shape.push_exists (h : Shape s) (n m : NodeRef) :
    (∃ x ∈ (s.node n).edges ++ [s.edgesMade],
        (s.push f t true).isVisible x = true ∧ (s.push f t true).touches m x) ↔
      (∃ x ∈ (s.node n).edges, s.isVisible x = true ∧ s.touches m x) ∨ f = m ∨ t = m := by
  have hnew : (s.push f t true).isVisible s.edgesMade = true ∧
      ((s.push f t true).touches m s.edgesMade ↔ f = m ∨ t = m) := by
    simp [St.isVisible, St.touches, St.push, newEdge, St.setLocalEdges, St.setCompleteEdges]
  constructor
  · rintro ⟨x, hx, hv, ht⟩
    rcases List.mem_append.1 hx with hx | hx
    · have hlt := (h.ends n x hx).1
      exact .inl ⟨x, hx, by rwa [St.push_visible hlt] at hv, (St.push_touches hlt).1 ht⟩
    · rw [List.mem_singleton.1 hx] at ht
      exact .inr (hnew.2.1 ht)
  · rintro (⟨x, hx, hv, ht⟩ | hm)
    · have hlt := (h.ends n x hx).1
      exact ⟨x, List.mem_append_left _ hx, by rwa [St.push_visible hlt], (St.push_touches hlt).2 ht⟩
    · exact ⟨_, by simp, hnew.1, hnew.2.2 hm⟩

/-- The first of the two `Node.addEdge`: the end `t` takes the ID of `f`. -/
theorem Good.first_labels (h : Good s) (hf : f ∈ s.completeEltSet.nodes) (m : NodeRef) :
    ((Node.addEdge f s.edgesMade (s.push f t true)).node m).partID =
      if t = m then (s.node f).partID else (s.node m).partID := by
  have hpart : (s.push f t true).newPart f s.edgesMade = some (s.node f).partID := by
    have hnew : (s.push f t true).isVisible s.edgesMade = true := by
      simp [St.isVisible, St.push, newEdge, St.setLocalEdges, St.setCompleteEdges]
    obtain ⟨k, hk⟩ := Option.isSome_iff_exists.1 (List.find?_isSome.2
      ⟨s.edgesMade, List.mem_append_right (s.node f).edges (List.mem_singleton_self _), hnew⟩)
    refine Option.map_eq_some_iff.2 ⟨k, hk, ?_⟩
    rcases List.mem_append.1 (List.mem_of_find?_eq_some hk) with hkm | hkm
    · have hlt := (h.shape.ends f k hkm).1
      exact h.exact.vector_same h.shape hf hkm (by rw [← St.push_visible hlt]; exact List.find?_some hk)
        ((St.push_touches hlt).1 (.inl rfl))
    · rw [List.mem_singleton.1 hkm]
      simp [St.push, newEdge, St.setLocalEdges, St.setCompleteEdges]
  have hex := h.shape.push_exists (f := f) (t := t) f m
  rw [Node.addEdge_partID, St.relabelled, hpart]
  dsimp only
  by_cases htm : t = m
  · rw [if_pos htm]
    exact if_pos (hex.2 (.inr (.inr htm)))
  · rw [if_neg htm]
    by_cases hx : ∃ x ∈ (s.node f).edges, s.isVisible x = true ∧ s.touches m x
    · refine (if_pos (hex.2 (.inl hx))).trans ?_
      obtain ⟨x, hx, hv, ht⟩ := hx
      exact (h.exact.vector_same h.shape hf hx hv ht).symm
    · by_cases hfm : f = m
      · exact (if_pos (hex.2 (.inr (.inl hfm)))).trans (by rw [hfm])
      · exact if_neg fun hx' => (hex.1 hx').elim hx (not_or.2 ⟨hfm, htm⟩)

/-- Behind the first `Node.addEdge` the vector of the other end is the old one, and the old edges are what they were. -/
theorem Good.push_vector (h : Good s) (hft : t ≠ f) :
    ((Node.addEdge f s.edgesMade (s.push f t true)).node t).edges = (s.node t).edges ∧
      ∀ k ∈ (s.node t).edges, (s.push f t true).isVisible k = s.isVisible k ∧
        ((s.push f t true).edge k).getFrom = (s.edge k).getFrom := by
  refine ⟨?_, fun k hk => ?_⟩
  · rw [Node.addEdge_edges, if_neg hft]
    rfl
  · have hlt := (h.shape.ends t k hk).1
    refine ⟨St.push_visible hlt, ?_⟩
    simp [St.push, newEdge, St.setLocalEdges, St.setCompleteEdges, Nat.ne_of_lt hlt]

/-- The IDs after the second `Node.addEdge`, from the ID it hands out. -/
theorem Good.handed_labels (h : Good s) (hf : f ∈ s.completeEltSet.nodes) (hft : t ≠ f) {part : Int}
    (hpart : (Node.addEdge f s.edgesMade (s.push f t true)).newPart t s.edgesMade = some part) (m : NodeRef) :
    ((∃ x ∈ (s.node t).edges, s.isVisible x = true ∧ s.touches m x) ∨ f = m ∨ t = m →
      ((VisibleLocality.addEdge s.edgesMade (Topo.newEdge f t true s)).node m).partID = part) ∧
    (¬((∃ x ∈ (s.node t).edges, s.isVisible x = true ∧ s.touches m x) ∨ f = m ∨ t = m) →
      ((VisibleLocality.addEdge s.edgesMade (Topo.newEdge f t true s)).node m).partID = (s.node m).partID) := by
  have hex := h.shape.push_exists (f := f) (t := t) t m
  rw [h.shape.addEdge_new h.synced, St.countEdge_node, Node.addEdge_partID, St.relabelled, hpart, (h.push_vector hft).1]
  simp only [Node.addEdge_visible, St.touches, Node.addEdge_edge] at hex ⊢
  refine ⟨fun hx => if_pos (hex.2 hx), fun hx => (if_neg fun hx' => hx (hex.1 hx')).trans ?_⟩
  rw [h.first_labels hf, if_neg fun htm => hx (.inr (.inr htm))]

/-- The ID that the second `Node.addEdge` hands out: the one at the first visible edge of `t`. -/
theorem Good.handed_part (h : Good s) (hf : f ∈ s.completeEltSet.nodes) (hft : t ≠ f) :
    (Node.addEdge f s.edgesMade (s.push f t true)).newPart t s.edgesMade =
      (((s.node t).edges.find? s.isVisible).or (some s.edgesMade)).map fun k =>
        if t = ((s.push f t true).edge k).getFrom then (s.node f).partID
        else (s.node ((s.push f t true).edge k).getFrom).partID := by
  have hnew : (s.push f t true).isVisible s.edgesMade = true := by
    simp [St.isVisible, St.push, newEdge, St.setLocalEdges, St.setCompleteEdges]
  have hfind : (s.node t).edges.find? (s.push f t true).isVisible = (s.node t).edges.find? s.isVisible :=
    List.find?_congr fun k hk => ((h.push_vector hft).2 k hk).1
  rw [St.newPart, (h.push_vector hft).1]
  simp only [Node.addEdge_visible, Node.addEdge_edge, h.first_labels hf, List.find?_append, hfind,
    List.find?_cons_of_pos hnew]

/-- The nodes connected to `y` take the ID of `x`, and no others do. -/
def Takes (s s' : St) (x y : NodeRef) : Prop :=
  (∀ m, s.Conn y m → (s'.node m).partID = (s.node x).partID) ∧
    ∀ m, ¬s.Conn y m → (s'.node m).partID = (s.node m).partID

/-- `t` has the ID of `f` handed out, and all of its component are its neighbours: it joins `f`. -/
theorem Good.join_from (h : Good s) (hf : f ∈ s.completeEltSet.nodes) (ht : t ∈ s.completeEltSet.nodes) (hft : t ≠ f)
    (hpart : (Node.addEdge f s.edgesMade (s.push f t true)).newPart t s.edgesMade = some (s.node f).partID)
    (hnear : ∀ m, s.Conn t m → m = t ∨ s.Adj t m) :
    Takes s (VisibleLocality.addEdge s.edgesMade (Topo.newEdge f t true s)) f t := by
  refine ⟨fun m hm => (h.handed_labels hf hft hpart m).1 ?_, fun m hm => ?_⟩
  · rcases hnear m hm with rfl | ⟨x, hx, hv, hj⟩
    · exact .inr (.inr rfl)
    · exact .inl ⟨x, (h.shape.mem_vector_iff hx).2 (St.joins_touches hj).1, hv, (St.joins_touches hj).2⟩
  · by_cases hfm : f = m
    · rw [(h.handed_labels hf hft hpart m).1 (.inr (.inl hfm)), hfm]
    · refine (h.handed_labels hf hft hpart m).2 ?_
      rintro (⟨x, hx, hv, hmx⟩ | hfm' | rfl)
      · obtain ⟨hmem, htx⟩ := (h.shape.mem_vector ht).1 hx
        rcases St.adj_of_touches hmem hv htx hmx with rfl | hc
        · exact hm (.refl _)
        · exact hm (.of_adj hc)
      · exact hfm hfm'
      · exact hm (.refl _)

/-- `t` has its own ID handed out, and `f` is alone: it joins `t`. -/
theorem Good.join_to (h : Good s) (hf : f ∈ s.completeEltSet.nodes) (ht : t ∈ s.completeEltSet.nodes) (hft : t ≠ f)
    (hpart : (Node.addEdge f s.edgesMade (s.push f t true)).newPart t s.edgesMade = some (s.node t).partID)
    (halone : ∀ m, s.Conn f m → m = f) :
    Takes s (VisibleLocality.addEdge s.edgesMade (Topo.newEdge f t true s)) t f := by
  refine ⟨fun m hm => (h.handed_labels hf hft hpart m).1 (.inr (.inl (halone m hm).symm)), fun m hm => ?_⟩
  have hfm : f ≠ m := by
    rintro rfl
    exact hm (.refl _)
  by_cases hx : ∃ x ∈ (s.node t).edges, s.isVisible x = true ∧ s.touches m x
  · rw [(h.handed_labels hf hft hpart m).1 (.inl hx)]
    obtain ⟨x, hx, hv, hmx⟩ := hx
    exact (h.exact.vector_same h.shape ht hx hv hmx).symm
  · by_cases htm : t = m
    · rw [(h.handed_labels hf hft hpart m).1 (.inr (.inr htm)), htm]
    · exact (h.handed_labels hf hft hpart m).2 (not_or.2 ⟨hx, not_or.2 ⟨hfm, htm⟩⟩)

/-- A new visible edge between two components: one component takes the ID of the other. -/
theorem Good.join_labels (h : Good s) (hf : f ∈ s.completeEltSet.nodes) (ht : t ∈ s.completeEltSet.nodes)
    (hne : ¬s.Conn f t) (hok : JoinOk s f t) :
    ∃ x y, ((x = f ∧ y = t) ∨ (x = t ∧ y = f)) ∧
      Takes s (VisibleLocality.addEdge s.edgesMade (Topo.newEdge f t true s)) x y := by
  have hft : t ≠ f := by
    rintro rfl
    exact hne (.refl _)
  have hok := hok.resolve_left hne
  have hpart := h.handed_part hf hft
  cases hg : (s.node t).edges.find? s.isVisible with
  | none =>
    have hnone := List.find?_eq_none.1 hg
    have hpart : (Node.addEdge f s.edgesMade (s.push f t true)).newPart t s.edgesMade = some (s.node f).partID := by
      have hnew : ((s.push f t true).edge s.edgesMade).getFrom = f := by
        simp [St.push, newEdge, St.setLocalEdges, St.setCompleteEdges]
      rw [hpart, hg]
      simp [hnew, hft]
    have halone : ∀ m, s.Conn t m → m = t := by
      intro m hm
      refine Graph.eq_of_isolated ?_ hm
      rintro c ⟨k, hk, hkv, hj⟩
      exact absurd hkv (hnone k ((h.shape.mem_vector_iff hk).2 (St.joins_touches hj).1))
    exact ⟨f, t, .inl ⟨rfl, rfl⟩, h.join_from hf ht hft hpart fun m hm => .inl (halone m hm)⟩
  | some g =>
    have hgm := List.mem_of_find?_eq_some hg
    have hgv := List.find?_some hg
    rw [hg] at hok hpart
    simp only [Option.some_or, Option.map_some, ((h.push_vector hft).2 g hgm).2] at hok hpart
    by_cases hgt : (s.edge g).getFrom = t
    · -- the first visible edge comes from `t`
      rw [if_pos hgt] at hok
      rw [if_pos hgt.symm] at hpart
      exact ⟨f, t, .inl ⟨rfl, rfl⟩, h.join_from hf ht hft hpart hok⟩
    · -- it comes from a neighbour of `t`
      rw [if_neg hgt] at hok
      rw [if_neg (Ne.symm hgt), h.exact.vector_same h.shape ht hgm hgv (.inl rfl)] at hpart
      exact ⟨t, f, .inr ⟨rfl, rfl⟩, h.join_to hf ht hft hpart hok⟩

theorem Good.addEdge (h : Good s) (hr : Room s) (hf : f ∈ s.completeEltSet.nodes) (ht : t ∈ s.completeEltSet.nodes)
    (hok : JoinOk s f t) : Good (TGPanel.addEdge f t s) := by
  have hg := h.shape.addEdge_grown h.synced f t true
  have hs := hg.shape h.shape hf ht
  have hlf : Live s f := ⟨(h.shape.nodes f hf).1, .inl hf⟩
  have hlt : Live s t := ⟨(h.shape.nodes t ht).1, .inl ht⟩
  have hadj : ∀ a b, (VisibleLocality.addEdge s.edgesMade (Topo.newEdge f t true s)).Adj a b ↔
      s.Adj a b ∨ (a = f ∧ b = t) ∨ (a = t ∧ b = f) := fun a b => (hg.adj h.shape a b).trans (by simp)
  have hcost : (VisibleLocality.addEdge s.edgesMade (Topo.newEdge f t true s)).cost ≤ 2 ^ 32 := by
    simp only [Room, St.cost, hg.cnt, hg.complete, List.length_append, List.length_singleton] at hr ⊢
    omega
  have hexact : Exact (VisibleLocality.addEdge s.edgesMade (Topo.newEdge f t true s)) := by
    refine ⟨fun a b ha hb => ?_, fun n hn => ?_⟩
    · rw [hg.live hf ht] at ha hb
      by_cases hc : s.Conn f t
      · -- the two ends have one ID already
        have hsame := h.exact.addEdge_same h.shape h.synced true hf ht
          fun _ => (h.exact.iff f t hlf hlt).2 hc
        rw [hsame, hsame, h.exact.iff a b ha hb]
        refine ⟨fun hab => hab.mono fun a b hab => (hadj a b).2 (.inl hab), fun hab => ?_⟩
        refine Graph.connected_of_detour (fun a b hab => ?_) hab
        rcases (hadj a b).1 hab with hab | ⟨rfl, rfl⟩ | ⟨rfl, rfl⟩
        · exact .of_adj hab
        · exact hc
        · exact hc.symm s.adj_symm
      · obtain ⟨x, y, ⟨rfl, rfl⟩ | ⟨rfl, rfl⟩, hy, hn⟩ := h.join_labels hf ht hc hok
        · exact Graph.relabel_add s.adj_symm hadj hlf h.exact.iff hy hn ha hb
        · exact Graph.relabel_add s.adj_symm (fun a b => (hadj a b).trans (or_congr_right or_comm)) hlt h.exact.iff
            hy hn ha hb
    · rw [hg.cnt]
      rw [hg.nodesMade] at hn
      by_cases hc : s.Conn f t
      · rw [h.exact.addEdge_same h.shape h.synced true hf ht fun _ => (h.exact.iff f t hlf hlt).2 hc]
        exact h.exact.drawn n hn
      · obtain ⟨x, y, hxy, hy, hnot⟩ := h.join_labels hf ht hc hok
        by_cases hyn : s.Conn y n
        · rw [hy n hyn]
          rcases hxy with ⟨rfl, -⟩ | ⟨rfl, -⟩
          · exact h.exact.drawn x hlf.1
          · exact h.exact.drawn x hlt.1
        · rw [hnot n hyn]
          exact h.exact.drawn n hn
  exact updatePartitions_good hs (hg.synced h.synced) ⟨hexact.coherent hs, hcost⟩

/-! ## Runs -/

theorem Good.init : Good init := by
  refine ⟨⟨by simp [Topo.init], by simp [Topo.init], by simp [Topo.init], by simp [Topo.init], by simp [Topo.init],
    by simp [Topo.init]⟩, rfl, ⟨fun a b ha => absurd ha.1 (Nat.not_lt_zero _), fun n hn => absurd hn (Nat.not_lt_zero _)⟩,
    ⟨⟨0, ⟨[], ⟨by simp, .nil, by simp [Topo.init]⟩, rfl⟩, by simp [Topo.init]⟩, by simp [Topo.init]⟩⟩

theorem Good.step {i : Input} (h : Good s) (hk : Keeps s i) (hs : step s i = some s') : Good s' := by
  cases i with
  | newNode id lbl => cases hs; exact h.newNode hk id lbl
  | addNode n =>
    simp only [Topo.step] at hs
    split at hs
    · rename_i hf; cases hs; exact h.addNode hk hf
    · cases hs
  | addEdge f t =>
    simp only [Topo.step] at hs
    split at hs
    · rename_i hft; cases hs; exact h.addEdge hk.1 hft.1 hft.2 hk.2
    · cases hs
  | deleteEdge e => cases hs; exact h.deleteEdge hk.1 hk.2
  | deleteEdgeBetween f t => cases hs; exact h.deleteEdge hk.1 hk.2
  | deleteNode n => cases hs; exact h.deleteNode hk.1 hk.2

/-- **After every call of a run whose calls keep the IDs exact, two nodes have one partition ID iff visible
edges connect them, the invisible edges number one less than the components, and all edges together connect
the graph.** -/
theorem partition_ids_exact {s : St} (h : Lts.Reach step Keeps init s) : Partitioned s :=
  (h.invariant (I := Good) Good.init fun _ _ _ hg hk hs => hg.step hk hs).partitioned

/-- Calls that only add, each new edge to a node that has no visible edge yet. -/
def Grows (s : St) : Input → Prop
  | .newNode _ _ => Room s
  | .addNode _ => Room s
  | .addEdge _ t => Room s ∧ (s.node t).edges.find? s.isVisible = none
  | _ => False

instance (s : St) : Decidable (Room s) := inferInstanceAs (Decidable (_ ≤ _))

instance (s : St) : (i : Input) → Decidable (Grows s i)
  | .newNode _ _ => inferInstanceAs (Decidable (Room s))
  | .addNode _ => inferInstanceAs (Decidable (Room s))
  | .addEdge _ t => inferInstanceAs (Decidable (Room s ∧ (s.node t).edges.find? s.isVisible = none))
  | .deleteEdge _ | .deleteEdgeBetween _ _ | .deleteNode _ => inferInstanceAs (Decidable False)

theorem Grows.keeps {i : Input} (h : Grows s i) : Keeps s i := by
  cases i with
  | newNode | addNode => exact h
  | addEdge f t => exact ⟨h.1, .inr (by rw [h.2]; trivial)⟩
  | deleteEdge | deleteEdgeBetween | deleteNode => exact h.elim

/-- Two nodes and an edge between them. -/
def pairRun : List Input :=
  [.newNode (some "1") none, .addNode 0, .newNode (some "2") none, .addNode 1, .addEdge 0 1]

theorem pairRun_possible : (Lts.execOk step Grows init pairRun).isSome = true := by decide +kernel

theorem partition_ids_exact_pair : Partitioned ((Lts.execOk step Grows init pairRun).get pairRun_possible) :=
  partition_ids_exact ((Lts.reach_get pairRun pairRun_possible).mono fun _ _ h => h.keeps)

/-! ## A bridge -/

/-- Visible edges that do not leave `side` connect nothing to what is outside. -/
theorem side_of_conn (side : NodeRef → Bool) (hs : ∀ e ∈ s.completeEltSet.edges, s.isVisible e = true →
    side (s.edge e).getFrom = side (s.edge e).getTo) (h : s.Conn a b) : side a = side b := by
  induction h with
  | refl => rfl
  | tail _ hadj ih =>
    obtain ⟨e, he, hv, ⟨rfl, rfl⟩ | ⟨rfl, rfl⟩⟩ := hadj
    · exact ih.trans (hs e he hv)
    · exact ih.trans (hs e he hv).symm

/-- The path 1-2-3-4 loses its middle edge. -/
def bridgeRun : List Input :=
  [.newNode (some "1") none, .addNode 0, .newNode (some "2") none, .addNode 1, .newNode (some "3") none, .addNode 2,
    .newNode (some "4") none, .addNode 3, .addEdge 0 1, .addEdge 1 2, .addEdge 2 3, .deleteEdgeBetween 1 2]

theorem bridgeRun_possible : (Lts.execOk step Lts.Any init bridgeRun).isSome = true := by decide +kernel

/-- The two halves keep one partition ID, and no edge joins them. -/
theorem bridge_keeps_partition : ¬∀ s, Lts.Reach step Lts.Any init s → Partitioned s := by
  intro hall
  have hp := hall _ (Lts.reach_get bridgeRun bridgeRun_possible)
  have hc := (hp.partID 0 (by decide +kernel) 3 (by decide +kernel)).1 (by decide +kernel)
  exact absurd (side_of_conn (· < 2) (by decide +kernel) hc) (by decide)

end Topo
