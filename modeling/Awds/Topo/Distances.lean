import Awds.Lib.Bfs
import Awds.Topo.Labels

/-!
# Distances in the graph: `graphelements/GESUtils.java`

| here | there |
| --- | --- |
| `St.getOtherEndpt`    | `Edge.getOtherEndpt` (`Edge.java:146`) |
| `Limits`              | `maxAddEdgeCount`, `maxExpandEdgeCount`, `unidirectional` (:76) |
| `scanEdge`, `scan`    | the body and the loop over the edges of a node (:91-99) |
| `calculateDistances`  | `calculateDistances` (:75), `TGNodeQueue`; the `Hashtable` is a list of its entries |
| `getLargestConnectedSubgraph` | `getLargestConnectedSubgraph` (:112) |

`subgraph.contains(n)` (:121) is `Hashtable.contains`, which looks for a value, and all values are
`Integer`s: `skipNode` stays false, each node of the set is searched from.
-/

namespace Topo

variable {s : St} {ges : GraphEltSet} {n m : NodeRef} {e : EdgeRef}

def St.getOtherEndpt (s : St) (e : EdgeRef) (n : NodeRef) : NodeRef :=
  if (s.edge e).getTo ≠ n then (s.edge e).getTo else (s.edge e).getFrom

def St.edgeCount (s : St) (n : NodeRef) : Nat := (s.node n).edges.length

namespace GESUtils

structure Limits where
  maxAddEdgeCount : Int
  maxExpandEdgeCount : Int
  unidirectional : Bool

/-- The distances with fewer arguments (:105). -/
def Limits.default : Limits := ⟨1000, 1000, false⟩

/-- The edge `e` of the node `n`, which is at distance `currDist`. -/
def scanEdge (s : St) (ges : GraphEltSet) (l : Limits) (currDist : Nat) (n : NodeRef) (st : Bfs.State NodeRef)
    (e : EdgeRef) : Bfs.State NodeRef :=
  if n ≠ (s.edge e).getFrom ∧ l.unidirectional = true then st
  else
    let adjNode := s.getOtherEndpt e n
    if e ∈ ges.edges ∧ adjNode ∉ st.keys ∧ s.edgeCount adjNode ≤ l.maxAddEdgeCount then
      ⟨st.found ++ [(adjNode, currDist + 1)],
        if s.edgeCount adjNode ≤ l.maxExpandEdgeCount then st.queue ++ [adjNode] else st.queue⟩
    else st

def scan (s : St) (ges : GraphEltSet) (l : Limits) (currDist : Nat) (n : NodeRef) (st : Bfs.State NodeRef) :
    Bfs.State NodeRef :=
  (s.node n).edges.foldl (scanEdge s ges l currDist n) st

/-- `calculateDistances`. A node goes into the queue once: there is fuel for all that were made. -/
def calculateDistances (s : St) (ges : GraphEltSet) (focusNode : NodeRef) (radius : Nat) (l : Limits) :
    List (NodeRef × Nat) :=
  Bfs.search (scan s ges l) radius s.nodesMade focusNode

/-- The last loop of `getLargestConnectedSubgraph` (:133-138). -/
def largest : List (List (NodeRef × Nat)) → List (NodeRef × Nat)
  | [] => []
  | sub :: subs => subs.foldl (fun best sub => if best.length < sub.length then sub else best) sub

/-- The loop over the nodes (:117-129). -/
def subgraphs (s : St) (ges : GraphEltSet) : List NodeRef → List (List (NodeRef × Nat)) → List (NodeRef × Nat)
  | [], subgraphVector => largest subgraphVector
  | n :: ns, subgraphVector =>
    let subgraph := calculateDistances s ges n 1000 .default
    if ges.nodes.length / 2 < subgraph.length then subgraph else subgraphs s ges ns (subgraphVector ++ [subgraph])

/-- `none` is `null`. -/
def getLargestConnectedSubgraph (s : St) (ges : GraphEltSet) : Option (List (NodeRef × Nat)) :=
  if ges.nodes = [] then none else some (subgraphs s ges ges.nodes [])

/-! ## The distances are those of the graph -/

/-- Where an edge leads to. -/
def next (s : St) (ges : GraphEltSet) (l : Limits) (n : NodeRef) : List NodeRef :=
  ((s.node n).edges.filter fun e => e ∈ ges.edges ∧ (n = (s.edge e).getFrom ∨ l.unidirectional = false) ∧
    s.edgeCount (s.getOtherEndpt e n) ≤ l.maxAddEdgeCount).map (s.getOtherEndpt · n)

/-- The nodes that are not too crowded to be passed through. -/
def Passable (s : St) (l : Limits) (n : NodeRef) : Prop := s.edgeCount n ≤ l.maxExpandEdgeCount

instance (s : St) (l : Limits) : DecidablePred (Passable s l) := fun n =>
  inferInstanceAs (Decidable ((s.edgeCount n : Int) ≤ l.maxExpandEdgeCount))

/-- The conditions in `scanEdge` are those under which `e` leads on, and that its end is new. -/
theorem scanEdge_eq (s : St) (ges : GraphEltSet) (l : Limits) (d : Nat) (n : NodeRef) (st : Bfs.State NodeRef)
    (e : EdgeRef) : scanEdge s ges l d n st e =
      if e ∈ ges.edges ∧ (n = (s.edge e).getFrom ∨ l.unidirectional = false) ∧
        s.edgeCount (s.getOtherEndpt e n) ≤ l.maxAddEdgeCount
      then Bfs.visit (Passable s l) d st (s.getOtherEndpt e n) else st := by
  unfold scanEdge
  by_cases hdir : n = (s.edge e).getFrom ∨ l.unidirectional = false
  · have hgo : ¬(n ≠ (s.edge e).getFrom ∧ l.unidirectional = true) := by
      rintro ⟨hn, hu⟩
      rcases hdir with hf | hf
      · exact hn hf
      · rw [hf] at hu
        cases hu
    simp only [if_neg hgo, hdir, true_and]
    by_cases hkey : s.getOtherEndpt e n ∈ st.keys
    · rw [if_neg fun h => h.2.1 hkey, Bfs.visit, if_pos hkey, ite_self]
    · simp only [hkey, not_false_eq_true, true_and, Bfs.visit, if_false, Passable]
      rfl
  · have hstop : n ≠ (s.edge e).getFrom ∧ l.unidirectional = true := by
      rw [not_or] at hdir
      exact ⟨hdir.1, by simpa using hdir.2⟩
    rw [if_pos hstop, if_neg fun h => hdir h.2.1]

theorem scan_eq (s : St) (ges : GraphEltSet) (l : Limits) : Bfs.Scans (Passable s l) (next s ges l) (scan s ges l) := by
  intro d n st
  unfold scan next
  rw [List.foldl_map, List.foldl_filter]
  congr 1
  funext st e
  simp only [scanEdge_eq, decide_eq_true_eq]

/-- All that the search comes to was made. -/
def Closed (s : St) (ges : GraphEltSet) : Prop :=
  ∀ n, ∀ e ∈ (s.node n).edges, e ∈ ges.edges → s.getOtherEndpt e n < s.nodesMade

/-- **The distances are shortest ways over passable nodes, up to the radius.** -/
theorem calculateDistances_spec (hc : Closed s ges) (hn : n < s.nodesMade) (radius : Nat) (l : Limits) :
    ((calculateDistances s ges n radius l).map Prod.fst).Nodup ∧
      ∀ m d, (m, d) ∈ calculateDistances s ges n radius l ↔
        Bfs.Distance (next s ges l) (Passable s l) n m d ∧ d ≤ radius := by
  have hnext : ∀ k ∈ List.range s.nodesMade, ∀ m ∈ next s ges l k, m ∈ List.range s.nodesMade := by
    intro k _ m hm
    obtain ⟨e, he, rfl⟩ := List.mem_map.1 hm
    rw [List.mem_filter, decide_eq_true_eq] at he
    exact List.mem_range.2 (hc k e he.1 he.2.1)
  exact Bfs.search_spec (scan_eq s ges l) hnext (List.mem_range.2 hn) (List.length_range).le

/-! ## The largest component -/

/-- An edge of the set joins `a` and `b`. -/
def Joined (s : St) (ges : GraphEltSet) (a b : NodeRef) : Prop := ∃ e ∈ ges.edges, s.joins e a b

/-- The edges of the set end at its nodes, and stand in their vectors. -/
structure Traversable (s : St) (ges : GraphEltSet) : Prop where
  nodup : ges.nodes.Nodup
  made : ∀ n ∈ ges.nodes, n < s.nodesMade
  ends : ∀ e ∈ ges.edges, ∀ n, s.touches n e → n ∈ ges.nodes ∧ e ∈ (s.node n).edges
  vector : ∀ n, ∀ e ∈ (s.node n).edges, s.touches n e

/-- No radius and no edge count is above the 1000 of `calculateDistances` (:105, :125). -/
structure Small (s : St) (ges : GraphEltSet) : Prop where
  nodes : ges.nodes.length ≤ 1001
  edges : ∀ n ∈ ges.nodes, s.edgeCount n ≤ 1000

theorem joined_symm (s : St) (ges : GraphEltSet) (a b : NodeRef) (h : Joined s ges a b) : Joined s ges b a :=
  let ⟨e, he, hj⟩ := h
  ⟨e, he, hj.symm⟩

theorem joins_otherEndpt (h : s.touches n e) : s.joins e n (s.getOtherEndpt e n) := by
  unfold St.getOtherEndpt
  by_cases ht : (s.edge e).getTo = n
  · rw [if_neg (not_not.2 ht)]
    exact .inr ⟨rfl, ht⟩
  · rw [if_pos ht]
    exact .inl ⟨h.resolve_right ht, rfl⟩

theorem otherEndpt_of_joins (h : s.joins e n m) : s.getOtherEndpt e n = m := by
  unfold St.getOtherEndpt
  rcases h with ⟨hf, ht⟩ | ⟨hf, ht⟩
  · by_cases hn : (s.edge e).getTo = n
    · rw [if_neg (not_not.2 hn), hf, ← hn, ht]
    · rw [if_pos hn, ht]
  · rw [if_neg (not_not.2 ht), hf]

theorem Traversable.mem_of_joins (h : Traversable s ges) (he : e ∈ ges.edges) (hj : s.joins e n m) :
    n ∈ ges.nodes ∧ m ∈ ges.nodes ∧ e ∈ (s.node n).edges := by
  obtain ⟨hn, hm⟩ := St.joins_touches hj
  exact ⟨(h.ends e he n hn).1, (h.ends e he m hm).1, (h.ends e he n hn).2⟩

theorem Traversable.closed (h : Traversable s ges) : Closed s ges := fun n e he hg =>
  h.made _ (h.mem_of_joins hg (joins_otherEndpt (h.vector n e he))).2.1

/-- The search does not leave the set. -/
theorem Traversable.mem_of_within {l : Limits} {k : Nat} (h : Traversable s ges) (hn : n ∈ ges.nodes)
    (hw : Bfs.Within (next s ges l) (Passable s l) n k m) : m ∈ ges.nodes := by
  induction hw with
  | start => exact hn
  | step _ _ hm _ =>
    obtain ⟨e, he, rfl⟩ := List.mem_map.1 hm
    rw [List.mem_filter, decide_eq_true_eq] at he
    exact (h.mem_of_joins he.2.1 (joins_otherEndpt (h.vector _ e he.1))).2.1

theorem Traversable.mem_next (h : Traversable s ges) (hs : Small s ges) : m ∈ next s ges .default n ↔ Joined s ges n m := by
  unfold next
  rw [List.mem_map]
  constructor
  · rintro ⟨e, he, rfl⟩
    rw [List.mem_filter, decide_eq_true_eq] at he
    exact ⟨e, he.2.1, joins_otherEndpt (h.vector n e he.1)⟩
  · rintro ⟨e, he, hj⟩
    obtain ⟨hn, hm, hv⟩ := h.mem_of_joins he hj
    have hother := otherEndpt_of_joins hj
    refine ⟨e, List.mem_filter.2 ⟨hv, decide_eq_true ⟨he, .inr rfl, ?_⟩⟩, hother⟩
    rw [hother]
    exact Int.ofNat_le.2 (hs.edges m hm)

/-- In a small set the search from `n` finds the component of `n`. -/
theorem Traversable.component (h : Traversable s ges) (hs : Small s ges) (hn : n ∈ ges.nodes) :
    ((calculateDistances s ges n 1000 .default).map Prod.fst).Nodup ∧
      ∀ m, m ∈ (calculateDistances s ges n 1000 .default).map Prod.fst ↔ Graph.Connected (Joined s ges) n m := by
  obtain ⟨hnodup, hspec⟩ := calculateDistances_spec h.closed (h.made n hn) 1000 .default
  have hnext : (fun a b => b ∈ next s ges .default a) = Joined s ges := by
    funext a b
    exact propext (h.mem_next hs)
  have hclosed : ∀ k ∈ ges.nodes, ∀ m ∈ next s ges .default k, m ∈ ges.nodes := by
    intro k _ m hm
    obtain ⟨e, he, hj⟩ := (h.mem_next hs).1 hm
    exact (h.mem_of_joins he hj).2.1
  have hpass : ∀ k, ∀ m ∈ next s ges .default k, Passable s .default m := by
    intro k m hm
    obtain ⟨e, he, hj⟩ := (h.mem_next hs).1 hm
    exact Int.ofNat_le.2 (hs.edges m (h.mem_of_joins he hj).2.1)
  have hreach : ∀ m, (∃ k, Bfs.Within (next s ges .default) (Passable s .default) n k m) ↔
      Graph.Connected (Joined s ges) n m := by
    intro m
    rw [Bfs.exists_within hpass, hnext]
    rfl
  refine ⟨hnodup, fun m => ?_⟩
  rw [← hreach, List.mem_map]
  constructor
  · rintro ⟨⟨m', d⟩, hmem, rfl⟩
    exact ⟨d, ((hspec _ d).1 hmem).1.1⟩
  · rintro ⟨k, hk⟩
    obtain ⟨d, -, hd⟩ := hk.distance
    have hlt : d < ges.nodes.length := hd.lt_length hn hclosed
    have hle := hs.nodes
    exact ⟨(m, d), (hspec m d).2 ⟨hd, by omega⟩, rfl⟩

theorem largest_spec : ∀ {subs : List (List (NodeRef × Nat))}, subs ≠ [] →
    largest subs ∈ subs ∧ ∀ sub ∈ subs, sub.length ≤ (largest subs).length
  | [], hne => absurd rfl hne
  | sub :: subs, _ => by
    have hfold : ∀ (subs : List (List (NodeRef × Nat))) (best : List (NodeRef × Nat)),
        let r := subs.foldl (fun best sub => if best.length < sub.length then sub else best) best
        (r = best ∨ r ∈ subs) ∧ best.length ≤ r.length ∧ ∀ x ∈ subs, x.length ≤ r.length := by
      intro subs
      induction subs with
      | nil => exact fun best => ⟨.inl rfl, le_rfl, by simp⟩
      | cons x subs ih =>
        intro best
        simp only [List.foldl_cons]
        by_cases hlt : best.length < x.length
        · rw [if_pos hlt]
          obtain ⟨hmem, hle, hall⟩ := ih x
          refine ⟨.inr ?_, hlt.le.trans hle, fun y hy => ?_⟩
          · rcases hmem with heq | hmem
            · rw [heq]; exact List.mem_cons_self
            · exact List.mem_cons_of_mem x hmem
          · rcases List.mem_cons.1 hy with rfl | hy
            · exact hle
            · exact hall y hy
        · rw [if_neg hlt]
          obtain ⟨hmem, hle, hall⟩ := ih best
          refine ⟨hmem.imp_right (List.mem_cons_of_mem x), hle, fun y hy => ?_⟩
          rcases List.mem_cons.1 hy with rfl | hy
          · exact (not_lt.1 hlt).trans hle
          · exact hall y hy
    obtain ⟨hmem, hle, hall⟩ := hfold subs sub
    refine ⟨?_, fun x hx => ?_⟩
    · rcases hmem with heq | hmem
      · exact List.mem_cons.2 (.inl heq)
      · exact List.mem_cons_of_mem sub hmem
    · rcases List.mem_cons.1 hx with rfl | hx
      · exact hle
      · exact hall x hx

/-- Two components are one, or fit into the set side by side. -/
theorem Traversable.length_le (h : Traversable s ges) (hs : Small s ges) (hn : n ∈ ges.nodes) (hm : m ∈ ges.nodes)
    (hhalf : ges.nodes.length / 2 < (calculateDistances s ges n 1000 .default).length) :
    (calculateDistances s ges m 1000 .default).length ≤ (calculateDistances s ges n 1000 .default).length := by
  obtain ⟨hnodup, hkeys⟩ := h.component hs hn
  obtain ⟨hnodup', hkeys'⟩ := h.component hs hm
  by_cases hnm : Graph.Connected (Joined s ges) n m
  · have hsub : (calculateDistances s ges m 1000 .default).map Prod.fst ⊆
        (calculateDistances s ges n 1000 .default).map Prod.fst := fun x hx =>
      (hkeys x).2 (hnm.trans ((hkeys' x).1 hx))
    simpa using (hnodup'.subperm hsub).length_le
  · have hin : ∀ {k x}, k ∈ ges.nodes → Graph.Connected (Joined s ges) k x → x ∈ ges.nodes := by
      intro k x hk hc
      induction hc with
      | refl => exact hk
      | tail _ hlast _ =>
        obtain ⟨e, he, hj⟩ := hlast
        exact (h.mem_of_joins he hj).2.1
    have hboth : ((calculateDistances s ges n 1000 .default).map Prod.fst ++
        (calculateDistances s ges m 1000 .default).map Prod.fst).Nodup := by
      refine List.nodup_append.2 ⟨hnodup, hnodup', ?_⟩
      rintro x hx y hy rfl
      exact hnm (((hkeys x).1 hx).trans (((hkeys' x).1 hy).symm (joined_symm s ges)))
    have hsub : (calculateDistances s ges n 1000 .default).map Prod.fst ++
        (calculateDistances s ges m 1000 .default).map Prod.fst ⊆ ges.nodes := by
      intro x hx
      rcases List.mem_append.1 hx with hx | hx
      · exact hin hn ((hkeys x).1 hx)
      · exact hin hm ((hkeys' x).1 hx)
    have hlen := (hboth.subperm hsub).length_le
    rw [List.length_append, List.length_map, List.length_map] at hlen
    omega

theorem subgraphs_spec (h : Traversable s ges) (hs : Small s ges) : ∀ {ns before : List NodeRef},
    before ++ ns = ges.nodes → ges.nodes ≠ [] →
      ∃ n ∈ ges.nodes, subgraphs s ges ns (before.map (calculateDistances s ges · 1000 .default)) =
          calculateDistances s ges n 1000 .default ∧
        ∀ m ∈ ges.nodes, (calculateDistances s ges m 1000 .default).length ≤
          (calculateDistances s ges n 1000 .default).length
  | [], before, hsplit, hne => by
    rw [List.append_nil] at hsplit
    subst hsplit
    have hsubs : ges.nodes.map (calculateDistances s ges · 1000 .default) ≠ [] := by simpa using hne
    obtain ⟨hmem, hall⟩ := largest_spec hsubs
    obtain ⟨n, hn, heq⟩ := List.mem_map.1 hmem
    refine ⟨n, hn, heq.symm, fun m hm => ?_⟩
    have hle := hall _ (List.mem_map_of_mem hm)
    rwa [← heq] at hle
  | n :: ns, before, hsplit, hne => by
    have hn : n ∈ ges.nodes := hsplit ▸ List.mem_append_right before List.mem_cons_self
    simp only [subgraphs]
    split_ifs with hhalf
    · exact ⟨n, hn, rfl, fun m hm => h.length_le hs hn hm hhalf⟩
    · have hrest : (before ++ [n]) ++ ns = ges.nodes := by rw [← hsplit]; simp
      have hnext := subgraphs_spec h hs hrest hne
      simpa only [List.map_append, List.map_cons, List.map_nil] using hnext

/-- **`getLargestConnectedSubgraph` finds a component, and none has more nodes.** -/
theorem getLargestConnectedSubgraph_spec (h : Traversable s ges) (hs : Small s ges) (hne : ges.nodes ≠ []) :
    ∃ sub, ∃ n ∈ ges.nodes, getLargestConnectedSubgraph s ges = some sub ∧ (sub.map Prod.fst).Nodup ∧
      (∀ m, m ∈ sub.map Prod.fst ↔ Graph.Connected (Joined s ges) n m) ∧
      ∀ k ∈ ges.nodes, ∀ l : List NodeRef, l.Nodup → (∀ m ∈ l, Graph.Connected (Joined s ges) k m) →
        l.length ≤ sub.length := by
  have hall : [] ++ ges.nodes = ges.nodes := rfl
  obtain ⟨n, hn, heq, hmax⟩ := subgraphs_spec h hs hall hne
  rw [List.map_nil] at heq
  refine ⟨_, n, hn, if_neg hne, ?_, ?_, fun k hk l hnodup hl => ?_⟩
  · rw [heq]
    exact (h.component hs hn).1
  · rw [heq]
    exact (h.component hs hn).2
  · rw [heq]
    have hsub : l ⊆ (calculateDistances s ges k 1000 .default).map Prod.fst := fun m hm =>
      ((h.component hs hk).2 m).2 (hl m hm)
    have hlen := (hnodup.subperm hsub).length_le
    rw [List.length_map] at hlen
    exact hlen.trans (hmax k hk)

end GESUtils

end Topo
