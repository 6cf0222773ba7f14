import Awds.Topo.Distances
import Awds.Topo.Represent

/-!
# What the panel shows: `LocalityUtils.java`

| here | there |
| --- | --- |
| `VisibleLocality.addNodeWithEdges` | `Locality.addNodeWithEdges` (`Locality.java:106`) |
| `VisibleLocality.addAll`  | `Locality.addAll` (`Locality.java:115`) |
| `View`                    | the panel with `select`, and `justMadeLocal` and `markedForRemoval` of the nodes |
| `View.markDistantNodes`, `removeMarkedNodes`, `addNearNodes`, `unmarkNewAdditions` | :82, :100, :119, :140 |
| `View.shiftLocale`        | `ShiftLocaleThread.run` (:168) |
| `View.setLocale`          | `setLocale` (:210) |
| `View.expandNode`, `hideNode`, `collapseNode` | :241, :272, :300 |

Each of the threads runs to its end: it holds the lock of the `LocalityUtils`. What `Thread.sleep` lets
the layout do in between is not in the model, nor is `massfade`. A `TGException` is printed, and the thread
ends. `keys` is the order in which a `Hashtable` enumerates its keys.
-/

namespace Topo

open GESUtils

namespace VisibleLocality

/-- The loop of `addNodeWithEdges` (:109) at index `i`: `addEdge` may lengthen the vector it goes through. -/
def addEdgesFrom (n : NodeRef) : Nat → Nat → St → St
  | 0, _, s => s
  | fuel + 1, i, s => match (s.node n).edges[i]? with
    | none => s
    | some e => addEdgesFrom n fuel (i + 1)
      (if s.getOtherEndpt e n ∈ s.visibleLocality.nodes then addEdge e s else s)

/-- `addNodeWithEdges`. An edge the graph does not hold comes to the vector once more, a loop twice. -/
def addNodeWithEdges (n : NodeRef) (s : St) : St × Option Thrown :=
  match addNode n s with
  | (s, some x) => (s, some x)
  | (s, none) => (addEdgesFrom n (3 * s.edgeCount n) 0 s, none)

def addNodes : List NodeRef → St → St × Option Thrown
  | [], s => (s, none)
  | n :: ns, s => match addNode n s with
    | (s, some x) => (s, some x)
    | (s, none) => addNodes ns s

def addAll (s : St) : St × Option Thrown :=
  match addNodes s.completeEltSet.nodes s with
  | (s, some x) => (s, some x)
  | (s, none) => (s.completeEltSet.edges.foldl (fun s e => addEdge e s) s, none)

end VisibleLocality

structure View where
  panel : St
  select : Option NodeRef
  justMadeLocal : NodeRef → Bool
  markedForRemoval : NodeRef → Bool

namespace View

def markDistantNodes (subgraph : List NodeRef) (v : View) : View :=
  { v with markedForRemoval := fun n =>
      v.markedForRemoval n || decide (n ∈ v.panel.visibleLocality.nodes ∧ n ∉ subgraph) }

def removeMarkedNodes (v : View) : View :=
  { v with
    markedForRemoval := fun n => v.markedForRemoval n && !decide (n ∈ v.panel.visibleLocality.nodes)
    panel := (v.panel.visibleLocality.nodes.filter v.markedForRemoval).foldl
      (fun s n => VisibleLocality.removeNode n s) v.panel }

def unmarkNewAdditions (v : View) : View :=
  { v with justMadeLocal := fun n => v.justMadeLocal n && !decide (n ∈ v.panel.visibleLocality.nodes) }

/-- `n` becomes local. -/
def addLocal (n : NodeRef) (v : View) : View × Option Thrown :=
  ({ v with
      justMadeLocal := Function.update v.justMadeLocal n true
      panel := (VisibleLocality.addNodeWithEdges n v.panel).1 },
    (VisibleLocality.addNodeWithEdges n v.panel).2)

/-- The inner loop of `addNearNodes` (:122): the nodes at distance `r` or less. -/
def addWithin (distHash : List (NodeRef × Nat)) (r : Nat) : List NodeRef → View → View × Option Thrown
  | [], v => (v, none)
  | n :: ns, v =>
    if n ∉ v.panel.visibleLocality.nodes ∧ (distHash.lookup n).getD 0 ≤ r then
      match v.addLocal n with
      | (v, some x) => (v, some x)
      | (v, none) => addWithin distHash r ns v
    else addWithin distHash r ns v

/-- The outer loop, with the radii to go. -/
def addNearNodes (distHash : List (NodeRef × Nat)) (keys : List NodeRef) : List Nat → View → View × Option Thrown
  | [], v => (v, none)
  | r :: rs, v => match v.addWithin distHash r keys with
    | (v, some x) => (v, some x)
    | (v, none) => addNearNodes distHash keys rs v

/-- Next to the focus, nodes come before others go. -/
def shiftLocale (keys : List NodeRef → List NodeRef) (focusNode : NodeRef) (radius : Nat) (l : Limits) (v : View) : View :=
  if focusNode ∈ v.panel.completeEltSet.nodes then
    let distHash := calculateDistances v.panel v.panel.completeEltSet focusNode radius l
    let subgraph := distHash.map Prod.fst
    if radius = 1 then
      match v.addNearNodes distHash (keys subgraph) (List.range (radius + 1)) with
      | (v, some _) => v
      | (v, none) => (v.unmarkNewAdditions.markDistantNodes subgraph).removeMarkedNodes
    else
      match (v.markDistantNodes subgraph).removeMarkedNodes.addNearNodes distHash (keys subgraph)
        (List.range (radius + 1)) with
      | (v, some _) => v
      | (v, none) => v.unmarkNewAdditions
  else v

/-- `LocalityUtils.INFINITE_LOCALITY_RADIUS`. -/
def infiniteRadius : Int := 2 ^ 31 - 1

def setLocale (keys : List NodeRef → List NodeRef) (n : Option NodeRef) (radius : Int) (l : Limits) (v : View) : View :=
  match n with
  | none => v
  | some n =>
    if radius < 0 then v
    else if radius = infiniteRadius then { v with panel := (VisibleLocality.addAll v.panel).1 }
    else v.shiftLocale keys n radius.toNat l

/-- The loop of `expandNode` (:247) at index `i`. -/
def expandFrom (n : NodeRef) : Nat → Nat → View → View
  | 0, _, v => v
  | fuel + 1, i, v => match (v.panel.node n).edges[i]? with
    | none => v
    | some e =>
      let newNode := v.panel.getOtherEndpt e n
      expandFrom n fuel (i + 1)
        (if newNode ∉ v.panel.visibleLocality.nodes then (v.addLocal newNode).1
          else if e ∉ v.panel.visibleLocality.edges then { v with panel := VisibleLocality.addEdge e v.panel }
          else v)

def expandNode (n : NodeRef) (v : View) : View :=
  if n ∈ v.panel.completeEltSet.nodes then (v.expandFrom n (3 * v.panel.edgeCount n) 0).unmarkNewAdditions else v

/-- The nodes of the largest connected subgraph of the locality. For an empty locality it is `null`, and
nothing is asked of it. -/
def subgraph (s : St) : List NodeRef := ((getLargestConnectedSubgraph s s.visibleLocality).getD []).map Prod.fst

def removeNode (n : NodeRef) (v : View) : View := { v with panel := VisibleLocality.removeNode n v.panel }

def hideNode (n : NodeRef) (v : View) : View :=
  if n ∈ v.panel.completeEltSet.nodes then
    let v := { v.removeNode n with select := if v.select = some n then none else v.select }
    (v.markDistantNodes (subgraph v.panel)).removeMarkedNodes
  else v

/-- The node comes back before the others that are marked go. -/
def collapseNode (n : NodeRef) (v : View) : View :=
  if n ∈ v.panel.completeEltSet.nodes then
    let v := v.removeNode n
    let v := v.markDistantNodes (subgraph v.panel)
    { v with panel := (VisibleLocality.addNodeWithEdges n v.panel).1 }.removeMarkedNodes
  else v

end View

/-! ## What is shown is a subgraph -/

variable {s s' t : St} {n m : NodeRef} {e k : EdgeRef}

/-- The states of the panel between the calls that shift the locality. The locality is a part of the graph
that is a graph by itself; what it does not hold is invisible, and the counters say how much that is. -/
structure Browsed (s : St) : Prop where
  nodes : s.visibleLocality.nodes.Nodup ∧ ∀ n ∈ s.visibleLocality.nodes, n ∈ s.completeEltSet.nodes
  edges : s.visibleLocality.edges.Nodup ∧ ∀ e ∈ s.visibleLocality.edges, e ∈ s.completeEltSet.edges
  ends : ∀ e ∈ s.visibleLocality.edges, ∀ n, s.touches n e → n ∈ s.visibleLocality.nodes
  hidden : ∀ e ∈ s.completeEltSet.edges, e ∉ s.visibleLocality.edges → s.isVisible e = false
  findNode : ∀ id n, s.visibleLocality.findNode id = some n ↔ n ∈ s.visibleLocality.nodes ∧ (s.node n).id = some id
  counted : CountedOn (Live s) s
  registered : Registered s
  complete : s.completeEltSet.nodes.Nodup ∧ s.completeEltSet.edges.Nodup
  made : ∀ n ∈ s.completeEltSet.nodes, n < s.nodesMade
  closed : ∀ e ∈ s.completeEltSet.edges, ∀ n, s.touches n e → n ∈ s.completeEltSet.nodes
  vector : ∀ n ∈ s.completeEltSet.nodes, (s.node n).edges = s.completeEltSet.edges.flatMap (s.copies n)
  touched : ∀ n, ∀ e ∈ (s.node n).edges, s.touches n e

/-- Shifting the locality leaves the graph as it is, and makes nothing visible. -/
structure Unmoved (s s' : St) : Prop where
  node : s'.node = s.node
  nodesMade : s'.nodesMade = s.nodesMade
  edgesMade : s'.edgesMade = s.edgesMade
  globPartCnt : s'.globPartCnt = s.globPartCnt
  complete : s'.completeEltSet = s.completeEltSet
  ends : ∀ k, (s'.edge k).getFrom = (s.edge k).getFrom ∧ (s'.edge k).getTo = (s.edge k).getTo
  visible : ∀ k, s'.isVisible k = true → s.isVisible k = true

theorem Unmoved.refl (s : St) : Unmoved s s := ⟨rfl, rfl, rfl, rfl, rfl, fun _ => ⟨rfl, rfl⟩, fun _ h => h⟩

theorem Unmoved.trans (h : Unmoved s t) (h' : Unmoved t s') : Unmoved s s' where
  node := h'.node.trans h.node
  nodesMade := h'.nodesMade.trans h.nodesMade
  edgesMade := h'.edgesMade.trans h.edgesMade
  globPartCnt := h'.globPartCnt.trans h.globPartCnt
  complete := h'.complete.trans h.complete
  ends k := ⟨(h'.ends k).1.trans (h.ends k).1, (h'.ends k).2.trans (h.ends k).2⟩
  visible k hk := h.visible k (h'.visible k hk)

theorem Unmoved.touches (h : Unmoved s s') (n : NodeRef) (e : EdgeRef) : s'.touches n e ↔ s.touches n e :=
  touches_congr h.ends

theorem Unmoved.copies (h : Unmoved s s') (n : NodeRef) : s'.copies n = s.copies n := copies_congr h.ends n

theorem Unmoved.otherEndpt (h : Unmoved s s') (e : EdgeRef) (n : NodeRef) :
    s'.getOtherEndpt e n = s.getOtherEndpt e n := by
  rw [St.getOtherEndpt, St.getOtherEndpt, (h.ends e).1, (h.ends e).2]

/-- The graph an editor leaves is shown as a whole. -/
theorem Tidy.browsed (h : Tidy s) : Browsed s where
  nodes := by rw [h.kept.same]; exact ⟨h.kept.shape.nodup.1, fun _ hn => hn⟩
  edges := by rw [h.kept.same]; exact ⟨h.kept.shape.nodupEdges, fun _ he => he⟩
  ends := by rw [h.kept.same]; exact fun e he n => Shape.node_of_touches h.kept.shape he
  hidden e he hl := absurd (h.kept.same ▸ he) hl
  findNode := by rw [h.kept.same]; exact h.kept.registered.findNode
  counted := h.counted
  registered := h.kept.registered
  complete := ⟨h.kept.shape.nodup.1, h.kept.shape.nodupEdges⟩
  made n hn := (h.kept.shape.nodes n hn).1
  closed e he n := Shape.node_of_touches h.kept.shape he
  vector := h.kept.shape.vector
  touched n e he := (h.kept.shape.ends n e he).2.2

/-- What follows from the graph, and what the locality has to show. -/
theorem Browsed.unmoved (h : Browsed s) (hu : Unmoved s s')
    (hnodes : s'.visibleLocality.nodes.Nodup ∧ ∀ n ∈ s'.visibleLocality.nodes, n ∈ s.completeEltSet.nodes)
    (hedges : s'.visibleLocality.edges.Nodup ∧ ∀ e ∈ s'.visibleLocality.edges, e ∈ s.completeEltSet.edges)
    (hends : ∀ e ∈ s'.visibleLocality.edges, ∀ n, s.touches n e → n ∈ s'.visibleLocality.nodes)
    (hhidden : ∀ e ∈ s.completeEltSet.edges, e ∉ s'.visibleLocality.edges → s'.isVisible e = false)
    (hfind : ∀ id n, s'.visibleLocality.findNode id = some n ↔ n ∈ s'.visibleLocality.nodes ∧ (s.node n).id = some id)
    (hcounted : CountedOn (Live s) s') : Browsed s' where
  nodes := by rw [hu.complete]; exact hnodes
  edges := by rw [hu.complete]; exact hedges
  ends e he n ht := hends e he n ((hu.touches n e).1 ht)
  hidden := by rw [hu.complete]; exact hhidden
  findNode := by rw [hu.node]; exact hfind
  counted m hm := by
    refine hcounted m ?_
    rwa [Live, hu.nodesMade, hu.complete, hu.node] at hm
  registered := h.registered.congr (by rw [hu.complete]) (by rw [hu.complete]) fun n _ => by rw [hu.node]
  complete := by rw [hu.complete]; exact h.complete
  made := by rw [hu.complete, hu.nodesMade]; exact h.made
  closed := by
    rw [hu.complete]
    exact fun e he n ht => h.closed e he n ((hu.touches n e).1 ht)
  vector := by
    rw [hu.complete, hu.node]
    intro n hn
    rw [h.vector n hn, hu.copies]
  touched n e he := by
    rw [hu.node] at he
    exact (hu.touches n e).2 (h.touched n e he)

theorem Browsed.mem_vector (h : Browsed s) (hn : n ∈ s.completeEltSet.nodes) :
    e ∈ (s.node n).edges ↔ e ∈ s.completeEltSet.edges ∧ s.touches n e := by
  rw [h.vector n hn, List.mem_flatMap]
  constructor
  · rintro ⟨k, hk, he⟩
    obtain rfl := s.eq_of_mem_copies n k e he
    exact ⟨hk, s.mem_copies.1 he⟩
  · rintro ⟨he, ht⟩
    exact ⟨e, he, s.mem_copies.2 ht⟩

theorem Browsed.traversable (h : Browsed s) : Traversable s s.completeEltSet where
  nodup := h.complete.1
  made := h.made
  ends e he n ht := ⟨h.closed e he n ht, (h.mem_vector (h.closed e he n ht)).2 ⟨he, ht⟩⟩
  vector := h.touched

/-- A search of what is shown stays there. -/
theorem Browsed.traversable_local (h : Browsed s) : Traversable s s.visibleLocality where
  nodup := h.nodes.1
  made n hn := h.made n (h.nodes.2 n hn)
  ends e he n ht := ⟨h.ends e he n ht, (h.mem_vector (h.closed e (h.edges.2 e he) n ht)).2 ⟨h.edges.2 e he, ht⟩⟩
  vector := h.touched

/-- The tag of a node counts the ends of its edges that are not shown (`Node.java:471`). -/
theorem Browsed.hiddenEdgeCount (h : Browsed s) (hn : n ∈ s.completeEltSet.nodes) :
    (s.edgeCount n : Int) - s.visibleEdgeCnt n =
      ((s.completeEltSet.edges.filter (· ∉ s.visibleLocality.edges)).flatMap (s.copies n)).length := by
  have hshown : (s.completeEltSet.edges.filter (· ∈ s.visibleLocality.edges)).Perm s.visibleLocality.edges := by
    refine (List.perm_ext_iff_of_nodup (h.complete.2.filter _) h.edges.1).2 fun k => ?_
    rw [List.mem_filter, decide_eq_true_eq]
    exact ⟨And.right, fun hk => ⟨h.edges.2 k hk, hk⟩⟩
  have hsplit : s.completeEltSet.edges.Perm
      (s.visibleLocality.edges ++ s.completeEltSet.edges.filter (· ∉ s.visibleLocality.edges)) := by
    refine (List.filter_append_perm (· ∈ s.visibleLocality.edges) s.completeEltSet.edges).symm.trans ?_
    simpa only [decide_not] using hshown.append_right _
  have hlen := (hsplit.flatMap_right (s.copies n)).length_eq
  rw [List.flatMap_append, List.length_append, ← h.vector n hn] at hlen
  rw [h.counted n ⟨h.made n hn, .inl hn⟩, St.edgeCount, hlen]
  push_cast
  ring

/-- What became of the locality: `N` are its nodes, `E` its edges. -/
structure Shifted (s s' : St) (N : NodeRef → Prop) (E : EdgeRef → Prop) : Prop where
  browsed : Browsed s'
  unmoved : Unmoved s s'
  nodes : ∀ m, m ∈ s'.visibleLocality.nodes ↔ N m
  edges : ∀ k, k ∈ s'.visibleLocality.edges ↔ E k

/-! ### Nodes and edges that come -/

/-- A node of the graph has its ID to itself, so it is let in. -/
theorem Browsed.addNode (h : Browsed s) (hn : n ∈ s.completeEltSet.nodes) :
    (VisibleLocality.addNode n s).2 = none ∧ (VisibleLocality.addNode n s).1.edge = s.edge ∧
      Shifted s (VisibleLocality.addNode n s).1 (fun m => m ∈ s.visibleLocality.nodes ∨ m = n)
        (· ∈ s.visibleLocality.edges) := by
  by_cases hl : n ∈ s.visibleLocality.nodes
  · rw [VisibleLocality.addNode, if_pos hl]
    refine ⟨rfl, rfl, h, .refl s, fun m => ⟨.inl, fun hm => ?_⟩, fun _ => Iff.rfl⟩
    rcases hm with hm | rfl
    · exact hm
    · exact hl
  · obtain ⟨id, hid⟩ := h.registered.id n hn
    have hfree : s.visibleLocality.findNode id = none := by
      cases hf : s.visibleLocality.findNode id with
      | none => rfl
      | some m =>
        obtain ⟨hm, hmid⟩ := (h.findNode id m).1 hf
        have hmn : m = n := by
          have h1 := (h.registered.findNode id m).2 ⟨h.nodes.2 m hm, hmid⟩
          have h2 := (h.registered.findNode id n).2 ⟨hn, hid⟩
          rw [h1] at h2
          exact Option.some.inj h2
        exact absurd (hmn ▸ hm) hl
    have hset : (s.setNode n fun v => { v with id := some id }) = s := by
      have hv : ({ s.node n with id := some id } : Node) = s.node n := by rw [← hid]
      rw [St.setNode, hv, Function.update_eq_self]
    have hadd : VisibleLocality.addNode n s = ({ s with visibleLocality := s.visibleLocality.put id n }, none) := by
      have hok : s.visibleLocality.addNode n (s.node n) = .ok (id, s.visibleLocality.put id n) := by
        rw [GraphEltSet.addNode, hid]
        simp [hfree]
      rw [VisibleLocality.addNode, if_neg hl, hok]
      simp only [hset]
      exact if_pos hn
    rw [hadd]
    have hmem : ∀ m, m ∈ (s.visibleLocality.put id n).nodes ↔ m ∈ s.visibleLocality.nodes ∨ m = n := fun m => by
      simp [GraphEltSet.put]
    refine ⟨rfl, rfl, h.unmoved ⟨rfl, rfl, rfl, rfl, rfl, fun _ => ⟨rfl, rfl⟩, fun _ hk => hk⟩ ⟨?_, fun m hm => ?_⟩ h.edges
      (fun e he m ht => (hmem m).2 (.inl (h.ends e he m ht))) h.hidden (fun k m => ?_) h.counted,
      ⟨rfl, rfl, rfl, rfl, rfl, fun _ => ⟨rfl, rfl⟩, fun _ hk => hk⟩, hmem, fun _ => Iff.rfl⟩
    · exact nodup_concat h.nodes.1 hl
    · rcases (hmem m).1 hm with hm | rfl
      · exact h.nodes.2 m hm
      · exact hn
    · rw [hmem, GraphEltSet.findNode_put]
      by_cases hk : k = id
      · subst hk
        rw [if_pos rfl, Option.some.injEq]
        constructor
        · rintro rfl
          exact ⟨.inr rfl, hid⟩
        · rintro ⟨hm, hmid⟩
          rcases hm with hm | hm
          · have hf := (h.findNode k m).2 ⟨hm, hmid⟩
            rw [hfree] at hf
            cases hf
          · exact hm.symm
      · rw [if_neg hk, h.findNode]
        refine and_congr_left fun hmid => ⟨.inl, fun hm => hm.resolve_right ?_⟩
        rintro rfl
        rw [hid] at hmid
        exact hk (Option.some.inj hmid).symm

theorem Browsed.addEdge (h : Browsed s) (he : e ∈ s.completeEltSet.edges)
    (hends : ∀ n, s.touches n e → n ∈ s.visibleLocality.nodes) :
    (VisibleLocality.addEdge e s).edge = s.edge ∧
      Shifted s (VisibleLocality.addEdge e s) (· ∈ s.visibleLocality.nodes)
        (fun k => k ∈ s.visibleLocality.edges ∨ k = e) := by
  by_cases hl : e ∈ s.visibleLocality.edges
  · rw [VisibleLocality.addEdge, if_pos hl]
    refine ⟨rfl, h, .refl s, fun _ => Iff.rfl, fun k => ⟨.inl, fun hk => ?_⟩⟩
    rcases hk with hk | rfl
    · exact hk
    · exact hl
  · have hadd : VisibleLocality.addEdge e s = (s.setLocalEdges (s.visibleLocality.edges ++ [e])).countEdge e 1 := by
      rw [VisibleLocality.addEdge, if_neg hl]
      exact congrArg (St.countEdge · e 1) (if_pos he)
    have hu : Unmoved s ((s.setLocalEdges (s.visibleLocality.edges ++ [e])).countEdge e 1) :=
      ⟨rfl, rfl, rfl, rfl, rfl, fun _ => ⟨rfl, rfl⟩, fun _ hk => hk⟩
    have hmem : ∀ k, k ∈ s.visibleLocality.edges ++ [e] ↔ k ∈ s.visibleLocality.edges ∨ k = e := fun k => by simp
    rw [hadd]
    refine ⟨rfl, h.unmoved hu h.nodes ⟨nodup_concat h.edges.1 hl, fun k hk => ?_⟩ (fun k hk n ht => ?_) (fun k hk hout => ?_)
      h.findNode (fun m hm => ?_), hu, fun _ => Iff.rfl, hmem⟩
    · rcases (hmem k).1 hk with hk | rfl
      · exact h.edges.2 k hk
      · exact he
    · rcases (hmem k).1 hk with hk | rfl
      · exact h.ends k hk n ht
      · exact hends n ht
    · exact h.hidden k hk fun hin => hout ((hmem k).2 (.inl hin))
    · rw [hu.copies, St.countEdge_degree]
      have hcnt := h.counted m hm
      have hcopies : (s.setLocalEdges (s.visibleLocality.edges ++ [e])).copies m = s.copies m := rfl
      rw [hcopies]
      simp only [St.countEdge, St.setLocalEdges, List.flatMap_append, List.flatMap_singleton, List.length_append]
      push_cast
      rw [← hcnt]
      ring

/-- The ends of an edge of `n`. -/
theorem touches_iff (h : s.touches n e) : s.touches m e ↔ m = n ∨ m = s.getOtherEndpt e n := by
  constructor
  · intro hm
    rcases joins_otherEndpt h with ⟨hf, ht⟩ | ⟨hf, ht⟩
    · rcases hm with hm | hm
      · exact .inl (hm.symm.trans hf)
      · exact .inr (hm.symm.trans ht)
    · rcases hm with hm | hm
      · exact .inr (hm.symm.trans hf)
      · exact .inl (hm.symm.trans ht)
  · rintro (rfl | rfl)
    · exact h
    · exact (St.joins_touches (joins_otherEndpt h)).2

/-- The loop goes through the vector from `i` on, with fuel for so many edges. -/
theorem Browsed.addEdgesFrom : ∀ (fuel i : Nat) {s : St}, Browsed s → n ∈ s.visibleLocality.nodes →
    (VisibleLocality.addEdgesFrom n fuel i s).edge = s.edge ∧
      Shifted s (VisibleLocality.addEdgesFrom n fuel i s) (· ∈ s.visibleLocality.nodes) (fun k =>
        k ∈ s.visibleLocality.edges ∨
          k ∈ ((s.node n).edges.drop i).take fuel ∧ s.getOtherEndpt k n ∈ s.visibleLocality.nodes)
  | 0, i, s, h, _ => ⟨rfl, h, .refl s, fun _ => Iff.rfl, fun k => by simp [VisibleLocality.addEdgesFrom]⟩
  | fuel + 1, i, s, h, hn => by
    cases he : (s.node n).edges[i]? with
    | none =>
      have hdrop : (s.node n).edges.drop i = [] := List.drop_eq_nil_of_le (List.getElem?_eq_none_iff.1 he)
      simp only [VisibleLocality.addEdgesFrom, he, hdrop]
      exact ⟨by simp, h, .refl s, fun _ => Iff.rfl, fun k => by simp⟩
    | some e =>
      obtain ⟨hi, hie⟩ := List.getElem?_eq_some_iff.1 he
      have hmem : e ∈ (s.node n).edges := hie ▸ List.getElem_mem hi
      have hdrop : ∀ k, k ∈ ((s.node n).edges.drop i).take (fuel + 1) ↔
          k = e ∨ k ∈ ((s.node n).edges.drop (i + 1)).take fuel := fun k => by
        rw [List.drop_eq_getElem_cons hi, hie, List.take_succ_cons, List.mem_cons]
      simp only [VisibleLocality.addEdgesFrom, he, hdrop]
      by_cases ho : s.getOtherEndpt e n ∈ s.visibleLocality.nodes
      · have hec : e ∈ s.completeEltSet.edges := ((h.mem_vector (h.nodes.2 n hn)).1 hmem).1
        obtain ⟨hedge, hs⟩ := h.addEdge hec fun m hm => by
          rcases (touches_iff (h.touched n e hmem)).1 hm with rfl | rfl
          · exact hn
          · exact ho
        obtain ⟨hedge', hrest⟩ := Browsed.addEdgesFrom fuel (i + 1) hs.browsed ((hs.nodes n).2 hn)
        rw [if_pos ho]
        refine ⟨hedge'.trans hedge, hrest.browsed, hs.unmoved.trans hrest.unmoved,
          fun m => (hrest.nodes m).trans (hs.nodes m), fun k => ?_⟩
        rw [hrest.edges, hs.edges, hs.unmoved.node, hs.unmoved.otherEndpt, hs.nodes]
        constructor
        · rintro ((hk | rfl) | ⟨hk, hko⟩)
          · exact .inl hk
          · exact .inr ⟨.inl rfl, ho⟩
          · exact .inr ⟨.inr hk, hko⟩
        · rintro (hk | ⟨rfl | hk, hko⟩)
          · exact .inl (.inl hk)
          · exact .inl (.inr rfl)
          · exact .inr ⟨hk, hko⟩
      · obtain ⟨hedge, hrest⟩ := Browsed.addEdgesFrom fuel (i + 1) h hn
        rw [if_neg ho]
        refine ⟨hedge, hrest.browsed, hrest.unmoved, hrest.nodes, fun k => ?_⟩
        rw [hrest.edges]
        refine or_congr_right (and_congr_left fun hko => ⟨.inr, fun hk => hk.resolve_left ?_⟩)
        rintro rfl
        exact ho hko

/-- A node comes with its edges to what is shown. -/
theorem Browsed.addNodeWithEdges (h : Browsed s) (hn : n ∈ s.completeEltSet.nodes) :
    (VisibleLocality.addNodeWithEdges n s).2 = none ∧ (VisibleLocality.addNodeWithEdges n s).1.edge = s.edge ∧
      Shifted s (VisibleLocality.addNodeWithEdges n s).1 (fun m => m ∈ s.visibleLocality.nodes ∨ m = n) (fun k =>
        k ∈ s.visibleLocality.edges ∨ (k ∈ s.completeEltSet.edges ∧ s.touches n k ∧
          ∀ m, s.touches m k → m ∈ s.visibleLocality.nodes ∨ m = n)) := by
  obtain ⟨hnone, hedge, hs⟩ := h.addNode hn
  have hpair : VisibleLocality.addNode n s = ((VisibleLocality.addNode n s).1, none) := Prod.ext rfl hnone
  have hin := (hs.nodes n).2 (.inr rfl)
  obtain ⟨hedge', hrest⟩ := Browsed.addEdgesFrom (3 * (VisibleLocality.addNode n s).1.edgeCount n) 0 hs.browsed hin
  rw [VisibleLocality.addNodeWithEdges, hpair]
  refine ⟨rfl, hedge'.trans hedge, hrest.browsed, hs.unmoved.trans hrest.unmoved,
    fun m => (hrest.nodes m).trans (hs.nodes m), fun k => ?_⟩
  have hall : ((s.node n).edges.drop 0).take (3 * (VisibleLocality.addNode n s).1.edgeCount n) = (s.node n).edges := by
    rw [List.drop_zero, St.edgeCount, hs.unmoved.node]
    exact List.take_of_length_le (by omega)
  refine (hrest.edges k).trans ?_
  rw [hs.edges, hs.unmoved.node, hall, h.mem_vector hn, hs.unmoved.otherEndpt, hs.nodes]
  refine or_congr_right ?_
  constructor
  · rintro ⟨⟨hk, hkt⟩, hko⟩
    refine ⟨hk, hkt, fun m hm => ?_⟩
    rcases (touches_iff hkt).1 hm with rfl | rfl
    · exact .inr rfl
    · exact hko
  · rintro ⟨hk, hkt, hall⟩
    exact ⟨⟨hk, hkt⟩, hall _ ((touches_iff hkt).2 (.inr rfl))⟩

/-! ### Nodes that go -/

theorem Browsed.removeNode (h : Browsed s) (n : NodeRef) :
    (∀ k, (VisibleLocality.removeNode n s).isVisible k =
        (s.isVisible k && !decide (k ∈ s.visibleLocality.edges ∧ s.touches n k))) ∧
      Shifted s (VisibleLocality.removeNode n s) (fun m => m ∈ s.visibleLocality.nodes ∧ m ≠ n)
        (fun k => k ∈ s.visibleLocality.edges ∧ ¬s.touches n k) := by
  by_cases hn : n ∈ s.visibleLocality.nodes
  · have hnc := h.nodes.2 n hn
    obtain ⟨id, hid⟩ := h.registered.id n hnc
    have hmem : ∀ k ∈ s.visibleLocality.edges, (k ∈ (s.node n).edges ↔ s.touches n k) := fun k hk => by
      rw [h.mem_vector hnc]
      exact and_iff_right (h.edges.2 k hk)
    obtain ⟨h1, h2, h3, h4, h5, h6, h7⟩ := VisibleLocality.foldl_removeEdge (s.node n).edges
      { s with visibleLocality := s.visibleLocality.drop n (s.node n) }
    have hvisible := VisibleLocality.foldl_removeEdge_visible (s.node n).edges
      { s with visibleLocality := s.visibleLocality.drop n (s.node n) } h.edges.1
    have hcounted := h.counted.removeNode n
    have hremove : VisibleLocality.removeNode n s = (s.node n).edges.foldl VisibleLocality.removeEdge
      { s with visibleLocality := s.visibleLocality.drop n (s.node n) } := if_pos hn
    rw [← hremove] at h1 h2 h3 h4 h5 h6 h7 hvisible
    have hvis : ∀ k, (VisibleLocality.removeNode n s).isVisible k =
        (s.isVisible k && !decide (k ∈ s.visibleLocality.edges ∧ s.touches n k)) := by
      intro k
      rw [hvisible]
      by_cases hk : k ∈ s.visibleLocality.edges
      · simp [GraphEltSet.drop, hk, hmem k hk, St.isVisible]
      · simp [GraphEltSet.drop, hk, St.isVisible]
    have hu : Unmoved s (VisibleLocality.removeNode n s) := by
      refine ⟨h1, h2, h3, h4, h5, h7, fun k hk => ?_⟩
      rw [hvis, Bool.and_eq_true] at hk
      exact hk.1
    have hnodes : ∀ m, m ∈ (VisibleLocality.removeNode n s).visibleLocality.nodes ↔ m ∈ s.visibleLocality.nodes ∧ m ≠ n := by
      intro m
      rw [h6]
      simp only [GraphEltSet.drop, h.nodes.1.mem_erase_iff]
      exact and_comm
    have hedges : ∀ k, k ∈ (VisibleLocality.removeNode n s).visibleLocality.edges ↔
        k ∈ s.visibleLocality.edges ∧ ¬s.touches n k := by
      intro k
      rw [h6]
      simp only [GraphEltSet.drop, h.edges.1.mem_sdiff_iff]
      refine and_congr_right fun hk => ?_
      rw [hmem k hk]
    refine ⟨hvis, h.unmoved hu ⟨?_, fun m hm => h.nodes.2 m ((hnodes m).1 hm).1⟩
      ⟨?_, fun k hk => h.edges.2 k ((hedges k).1 hk).1⟩ (fun k hk m ht => ?_) (fun k hk hout => ?_) (fun i m => ?_) hcounted,
      hu, hnodes, hedges⟩
    · rw [h6]
      exact h.nodes.1.erase n
    · rw [h6]
      exact h.edges.1.sublist (List.diff_sublist _ _)
    · obtain ⟨hk, hkn⟩ := (hedges k).1 hk
      refine (hnodes m).2 ⟨h.ends k hk m ht, ?_⟩
      rintro rfl
      exact hkn ht
    · rw [hvis]
      by_cases hkl : k ∈ s.visibleLocality.edges
      · have hkt : s.touches n k := by
          by_contra hkt
          exact hout ((hedges k).2 ⟨hkl, hkt⟩)
        simp [hkl, hkt]
      · rw [h.hidden k hk hkl]
        rfl
    · have hfind : (VisibleLocality.removeNode n s).visibleLocality.findNode i =
          if i = id then none else s.visibleLocality.findNode i := by
        rw [← GraphEltSet.findNode_drop hid n i, h6]
        rfl
      rw [hfind, hnodes]
      by_cases hi : i = id
      · subst hi
        rw [if_pos rfl]
        refine ⟨fun hm => (Option.some_ne_none m hm.symm).elim, fun hm => absurd ?_ hm.1.2⟩
        have hf := (h.findNode i m).2 ⟨hm.1.1, hm.2⟩
        rw [(h.findNode i n).2 ⟨hn, hid⟩] at hf
        exact (Option.some.inj hf).symm
      · rw [if_neg hi, h.findNode]
        refine and_congr_left fun hmid => (and_iff_left ?_).symm
        rintro rfl
        rw [hid] at hmid
        exact hi (Option.some.inj hmid).symm
  · have hno : ∀ k ∈ s.visibleLocality.edges, ¬s.touches n k := fun k hk ht => hn (h.ends k hk n ht)
    rw [VisibleLocality.removeNode, if_neg hn]
    refine ⟨fun k => ?_, h, .refl s, fun m => ⟨fun hm => ⟨hm, ?_⟩, And.left⟩, fun k => ⟨fun hk => ⟨hk, hno k hk⟩, And.left⟩⟩
    · by_cases hk : k ∈ s.visibleLocality.edges
      · simp [hno k hk]
      · simp [hk]
    · rintro rfl
      exact hn hm

theorem Browsed.removeNodes : ∀ (ns : List NodeRef) {s : St}, Browsed s →
    (∀ k, (ns.foldl (fun s n => VisibleLocality.removeNode n s) s).isVisible k = true ↔
        s.isVisible k = true ∧ (k ∈ s.visibleLocality.edges → ∀ n ∈ ns, ¬s.touches n k)) ∧
      Shifted s (ns.foldl (fun s n => VisibleLocality.removeNode n s) s) (fun m => m ∈ s.visibleLocality.nodes ∧ m ∉ ns)
        (fun k => k ∈ s.visibleLocality.edges ∧ ∀ n ∈ ns, ¬s.touches n k)
  | [], s, h => ⟨fun k => by simp, h, .refl s, fun m => by simp, fun k => by simp⟩
  | n :: ns, s, h => by
    obtain ⟨hvis, hfirst⟩ := h.removeNode n
    obtain ⟨hvis', hrest⟩ := Browsed.removeNodes ns hfirst.browsed
    refine ⟨fun k => (hvis' k).trans ?_, hrest.browsed, hfirst.unmoved.trans hrest.unmoved, fun m => ?_, fun k => ?_⟩
    · rw [hvis, hfirst.edges, List.forall_mem_cons, Bool.and_eq_true, Bool.not_eq_true', decide_eq_false_iff_not, not_and]
      simp only [hfirst.unmoved.touches]
      constructor
      · rintro ⟨⟨hk, hn⟩, hall⟩
        exact ⟨hk, fun hkl => ⟨hn hkl, hall ⟨hkl, hn hkl⟩⟩⟩
      · rintro ⟨hk, hall⟩
        exact ⟨⟨hk, fun hkl => (hall hkl).1⟩, fun hkl => (hall hkl.1).2⟩
    · refine (hrest.nodes m).trans ?_
      rw [hfirst.nodes, List.mem_cons, not_or, and_assoc]
    · refine (hrest.edges k).trans ?_
      rw [hfirst.edges, List.forall_mem_cons, and_assoc]
      simp only [hfirst.unmoved.touches]

end Topo
