import Awds.Topo.Labels

/-!
# `updatePartitions`

The first loop takes all invisible edges away and leaves exact partition IDs behind, the second picks one
node of each component, the third joins these by new invisible edges: `updatePartitions_good`.
-/

namespace Topo

open TGPanel

variable {s s' : St} {n m f t a b : NodeRef} {e k : EdgeRef}

/-! ## The first loop -/

theorem St.adj_congr (hcomp : s'.completeEltSet.edges = s.completeEltSet.edges)
    (hv : ∀ k ∈ s.completeEltSet.edges, s'.isVisible k = s.isVisible k)
    (hends : ∀ k, (s'.edge k).getFrom = (s.edge k).getFrom ∧ (s'.edge k).getTo = (s.edge k).getTo) :
    s'.Adj = s.Adj := by
  ext a b
  simp only [Adj, AdjOn, joins, hcomp, hends]
  refine exists_congr fun k => and_congr_right fun hk => ?_
  rw [hv k hk]

/-- The locality lets an edge go that is invisible already. -/
theorem Draining.removeEdge (h : Draining s) (hv : s.isVisible e = false) :
    Draining (VisibleLocality.removeEdge s e) := by
  obtain ⟨hnode, hmade, -, hcnt, hcomp, -⟩ := VisibleLocality.removeEdge_frame s e
  have hvis : (VisibleLocality.removeEdge s e).isVisible = s.isVisible := by
    funext k
    rw [VisibleLocality.removeEdge_visible]
    by_cases hk : k = e
    · subst hk; simp [hv]
    · have hb : (k == e) = false := by simpa using hk
      simp [hb]
  have hadj : (VisibleLocality.removeEdge s e).Adj = s.Adj :=
    St.adj_congr (by rw [hcomp]) (fun k _ => by rw [hvis]) (VisibleLocality.removeEdge_ends s e)
  refine ⟨⟨?_, ?_, ?_, ?_⟩, by simpa only [St.cost, hcnt, hcomp] using h.room⟩
  · simpa only [hadj, hnode] using h.coherent.same
  · simpa only [St.Conn, hadj, Live, Stale, hnode, hmade, hcomp, hvis] using h.coherent.apart
  · simpa only [Drawn, hnode, hmade, hcnt] using h.coherent.drawn
  · simpa only [hcomp, hvis, hnode, touches_congr (VisibleLocality.removeEdge_ends s e)] using h.coherent.listed

/-- What `VisibleLocality.deleteEdge` does to the edge list and to the visibility of the edges. -/
theorem VisibleLocality.deleteEdge_edges (s : St) (e : EdgeRef) :
    (deleteEdge (some e) s).completeEltSet = { s.completeEltSet with edges := s.completeEltSet.edges.erase e } ∧
      (deleteEdge (some e) s).visibleLocality = { s.visibleLocality with edges := s.visibleLocality.edges.erase e } ∧
      ∀ k, (deleteEdge (some e) s).isVisible k = (s.isVisible k && !(k == e && s.visibleLocality.edges.contains e)) := by
  obtain ⟨hedge, -, -, hloc, hcomp⟩ := GraphEltSet.deleteEdge_frame e (removeEdge s e)
  obtain ⟨-, -, -, -, hcomp', hloc'⟩ := removeEdge_frame s e
  refine ⟨by rw [deleteEdge, hcomp, hcomp'], by rw [deleteEdge, hloc, hloc'], fun k => ?_⟩
  rw [← removeEdge_visible]
  simp only [deleteEdge, St.isVisible, hedge]

/-- Deleting an invisible edge changes the visibility of none. -/
theorem VisibleLocality.deleteEdge_visible (hv : s.isVisible e = false) :
    (deleteEdge (some e) s).isVisible = s.isVisible := by
  funext k
  rw [(deleteEdge_edges s e).2.2]
  by_cases hk : k = e
  · subst hk; simp [hv]
  · have hb : (k == e) = false := by simpa using hk
    simp [hb]

/-- The rule for the first loop: what deleting an invisible edge keeps holds after it, and no invisible
edge is left. -/
theorem removeInvisible_rule {I : St → Prop} (hnd : ∀ s, I s → s.completeEltSet.edges.Nodup)
    (hI : ∀ s e, I s → e ∈ s.completeEltSet.edges → s.isVisible e = false → I (VisibleLocality.deleteEdge (some e) s)) :
    ∀ (i : Nat) (s : St), I s → (∀ e ∈ s.completeEltSet.edges, s.isVisible e = false → e ∈ s.completeEltSet.edges.take i) →
      I (removeInvisible i s) ∧
        ∀ e ∈ (removeInvisible i s).completeEltSet.edges, (removeInvisible i s).isVisible e = true
  | 0, s, hs, hinv => ⟨hs, fun e he => by
      by_contra hv
      have hv : s.isVisible e = false := Bool.eq_false_iff.2 hv
      simpa using hinv e he hv⟩
  | i + 1, s, hs, hinv => by
    rw [removeInvisible]
    cases hi : s.completeEltSet.edges[i]? with
    | none =>
      refine removeInvisible_rule hnd hI i s hs fun e he hv => ?_
      rw [List.take_of_length_le (List.getElem?_eq_none_iff.1 hi)]
      exact he
    | some e =>
      obtain ⟨hlt, hget⟩ := List.getElem?_eq_some_iff.1 hi
      have hsplit : s.completeEltSet.edges.take (i + 1) = s.completeEltSet.edges.take i ++ [e] := by
        rw [List.take_add_one, hi]; rfl
      dsimp only
      by_cases hv : s.isVisible e = true
      · rw [if_pos hv]
        refine removeInvisible_rule hnd hI i s hs fun k hk hkv => ?_
        have := hinv k hk hkv
        rw [hsplit] at this
        refine (List.mem_append.1 this).resolve_right fun hke => ?_
        rw [List.mem_singleton.1 hke, hv] at hkv
        cases hkv
      · have hv : s.isVisible e = false := by simpa using hv
        rw [if_neg (by simp [hv])]
        refine removeInvisible_rule hnd hI i _ (hI s e hs (List.mem_of_getElem? hi) hv) fun k hk hkv => ?_
        rw [VisibleLocality.deleteEdge_visible hv] at hkv
        rw [(VisibleLocality.deleteEdge_edges s e).1] at hk ⊢
        have hkn : k ≠ e := ((hnd s hs).mem_erase_iff.1 hk).1
        have htake := hinv k ((hnd s hs).mem_erase_iff.1 hk).2 hkv
        rw [hsplit] at htake
        have hpre : k ∈ s.completeEltSet.edges.take i :=
          (List.mem_append.1 htake).resolve_right fun h => hkn (List.mem_singleton.1 h)
        -- `e` stands behind the first `i` edges
        have herase : (s.completeEltSet.edges.erase e).take i = s.completeEltSet.edges.take i := by
          have hnd := hnd s hs
          rw [← List.take_append_drop (i + 1) s.completeEltSet.edges, hsplit, List.append_assoc] at hnd ⊢
          have hout : e ∉ s.completeEltSet.edges.take i := fun he =>
            (List.nodup_append.1 hnd).2.2 e he e (by simp) rfl
          have hlen : (s.completeEltSet.edges.take i).length = i := by
            rw [List.length_take]; omega
          rw [List.erase_append_right _ hout, List.take_append_of_le_length (by omega),
            List.take_append_of_le_length (by omega)]
        rw [herase]
        exact hpre

theorem removeInvisible_spec (i : Nat) (s : St) (hs : Shape s) (hy : Synced s) (hd : Draining s)
    (hinv : ∀ e ∈ s.completeEltSet.edges, s.isVisible e = false → e ∈ s.completeEltSet.edges.take i) :
    Shape (removeInvisible i s) ∧ Synced (removeInvisible i s) ∧ Draining (removeInvisible i s) ∧
      ∀ e ∈ (removeInvisible i s).completeEltSet.edges, (removeInvisible i s).isVisible e = true := by
  obtain ⟨⟨h1, h2, h3⟩, h4⟩ := removeInvisible_rule (I := fun s => Shape s ∧ Synced s ∧ Draining s)
    (fun s h => h.1.nodupEdges) (fun s e h _ hv => by
      obtain ⟨hs, hy, hd⟩ := h
      refine ⟨hs.localDeleteEdge e, hy.deleteEdge e, (hd.removeEdge hv).deleteEdge (ShapeBut.removeEdge hs e) ?_⟩
      rw [VisibleLocality.removeEdge_visible, hv]; rfl) i s ⟨hs, hy, hd⟩ hinv
  exact ⟨h1, h2, h3, h4⟩

/-! ## The second loop -/

/-- The loop over the nodes `l`, with the nodes `ps` found before. -/
theorem foldl_partitions (g : NodeRef → Int) : ∀ (l ps : List NodeRef), ps.Pairwise (fun a b => g a ≠ g b) →
    (l.foldl (fun ps n => if ps.any fun m => g n == g m then ps else ps ++ [n]) ps).Pairwise
        (fun a b => g a ≠ g b) ∧
      (∀ n ∈ l.foldl (fun ps n => if ps.any fun m => g n == g m then ps else ps ++ [n]) ps, n ∈ ps ∨ n ∈ l) ∧
      ∀ n, n ∈ ps ∨ n ∈ l →
        ∃ m ∈ l.foldl (fun ps n => if ps.any fun m => g n == g m then ps else ps ++ [n]) ps, g n = g m
  | [], ps, hp => ⟨hp, fun n hn => .inl hn, fun n hn => ⟨n, hn.resolve_right (by simp), rfl⟩⟩
  | x :: l, ps, hp => by
    rw [List.foldl_cons]
    by_cases hx : (ps.any fun m => g x == g m) = true
    · rw [if_pos hx]
      obtain ⟨h1, h2, h3⟩ := foldl_partitions g l ps hp
      refine ⟨h1, fun n hn => (h2 n hn).imp id (List.mem_cons_of_mem _), fun n hn => ?_⟩
      rcases hn with hn | hn
      · exact h3 n (.inl hn)
      · rcases List.mem_cons.1 hn with rfl | hn
        · obtain ⟨m, hm, hgm⟩ := List.any_eq_true.1 hx
          obtain ⟨m', hm', hg⟩ := h3 m (.inl hm)
          exact ⟨m', hm', (by simpa using hgm : g n = g m).trans hg⟩
        · exact h3 n (.inr hn)
    · rw [if_neg hx]
      have hne : ∀ m ∈ ps, g m ≠ g x := fun m hm heq =>
        hx (List.any_eq_true.2 ⟨m, hm, by simpa using heq.symm⟩)
      have hp' : (ps ++ [x]).Pairwise fun a b => g a ≠ g b :=
        List.pairwise_append.2 ⟨hp, List.pairwise_singleton _ _, fun a ha b hb => by
          rw [List.mem_singleton.1 hb]; exact hne a ha⟩
      obtain ⟨h1, h2, h3⟩ := foldl_partitions g l (ps ++ [x]) hp'
      refine ⟨h1, fun n hn => ?_, fun n hn => h3 n ?_⟩
      · have := h2 n hn
        simp only [List.mem_append, List.mem_cons] at this ⊢
        tauto
      · simp only [List.mem_append, List.mem_cons] at hn ⊢
        tauto

theorem partitions_subset (s : St) : ∀ n ∈ partitions s, n ∈ s.completeEltSet.nodes := fun n hn =>
  ((foldl_partitions (fun n => (s.node n).partID) s.completeEltSet.nodes [] List.Pairwise.nil).2.1 n hn).resolve_left
    (by simp)

/-- `partitions` holds one node of each component. -/
theorem Exact.partitions (h : Exact s) (hs : Shape s) :
    Graph.Transversal s.Adj s.completeEltSet.nodes (partitions s) := by
  obtain ⟨h1, h2, h3⟩ := foldl_partitions (fun n => (s.node n).partID) s.completeEltSet.nodes [] List.Pairwise.nil
  have hlive : ∀ n ∈ s.completeEltSet.nodes, Live s n := fun n hn => ⟨(hs.nodes n hn).1, .inl hn⟩
  have hsub : ∀ n ∈ TGPanel.partitions s, n ∈ s.completeEltSet.nodes := fun n hn => (h2 n hn).resolve_left (by simp)
  refine ⟨hsub, ?_, fun n hn => ?_⟩
  · refine List.Pairwise.imp_of_mem (fun {a b} ha hb hab hc => hab ?_) h1
    exact (h.iff a b (hlive a (hsub a ha)) (hlive b (hsub b hb))).2 hc
  · obtain ⟨m, hm, hp⟩ := h3 n (.inr hn)
    exact ⟨m, hm, (h.iff n m (hlive n hn) (hlive m (hsub m hm))).1 hp⟩

/-! ## The third loop -/

/-- `Node.addEdge` changes no ID where the visible edges of the vector join nodes of one ID. -/
theorem Node.addEdge_same (hsame : ∀ x ∈ (s.node n).edges ++ [e], s.isVisible x = true → ∀ m, s.touches m x →
    (s.node m).partID = (s.node n).partID) (m : NodeRef) :
    ((Node.addEdge n e s).node m).partID = (s.node m).partID := by
  rw [addEdge_partID, St.relabelled]
  cases hp : s.newPart n e with
  | none => rfl
  | some part =>
    obtain ⟨k, hk, rfl⟩ := Option.map_eq_some_iff.1 hp
    have hkp := hsame k (List.mem_of_find?_eq_some hk) (List.find?_some hk) _ (.inl rfl)
    dsimp only
    split
    · rename_i hx
      obtain ⟨x, hx, hv, ht⟩ := hx
      rw [hkp, hsame x hx hv m ht]
    · rfl

theorem Grown.edge_old {visible : Bool} (hg : Grown f t visible s s') (hk : k < s.edgesMade) :
    s'.edge k = s.edge k := by
  rw [hg.edge, Function.update_of_ne (Nat.ne_of_lt hk)]

theorem Grown.edge_new {visible : Bool} (hg : Grown f t visible s s') : s'.edge s.edgesMade = ⟨f, t, visible⟩ := by
  rw [hg.edge, Function.update_self]

/-- A new edge adds its two ends to the relation, if it is visible. -/
theorem Grown.adj {visible : Bool} (hg : Grown f t visible s s') (hs : Shape s) (a b : NodeRef) :
    s'.Adj a b ↔ s.Adj a b ∨ visible = true ∧ ((a = f ∧ b = t) ∨ (a = t ∧ b = f)) := by
  have hold : ∀ k ∈ s.completeEltSet.edges, (s'.isVisible k = true ∧ s'.joins k a b) ↔
      (s.isVisible k = true ∧ s.joins k a b) := fun k hk => by
    simp only [St.isVisible, St.joins, hg.edge_old (hs.edges k hk).1]
  have hnew : (s'.isVisible s.edgesMade = true ∧ s'.joins s.edgesMade a b) ↔
      visible = true ∧ ((a = f ∧ b = t) ∨ (a = t ∧ b = f)) := by
    simp only [St.isVisible, St.joins, hg.edge_new]
    refine and_congr_right fun _ => or_congr (and_congr eq_comm eq_comm) ?_
    rw [and_comm]
    exact and_congr eq_comm eq_comm
  simp only [St.Adj, St.AdjOn, hg.complete, List.mem_append, List.mem_singleton]
  constructor
  · rintro ⟨k, hk | rfl, h⟩
    · exact .inl ⟨k, hk, (hold k hk).1 h⟩
    · exact .inr (hnew.1 h)
  · rintro (⟨k, hk, h⟩ | h)
    · exact ⟨k, .inl hk, (hold k hk).2 h⟩
    · exact ⟨_, .inr rfl, hnew.2 h⟩

/-- The same nodes are live. -/
theorem Grown.live {visible : Bool} (hg : Grown f t visible s s') (hf : f ∈ s.completeEltSet.nodes)
    (ht : t ∈ s.completeEltSet.nodes) : Live s' n ↔ Live s n := by
  unfold Live
  rw [hg.nodesMade, hg.complete, hg.vector]
  by_cases hn : n ∈ s.completeEltSet.nodes
  · simp [hn]
  · have hc : s'.copies n s.edgesMade = [] := by
      refine St.copies_eq_nil.2 fun h => hn ?_
      rw [St.touches, hg.edge_new] at h
      rcases h with rfl | rfl
      · exact hf
      · exact ht
    rw [hc, List.append_nil]

/-- The nodes at a visible edge of the vector of `n` have the ID of `n`. -/
theorem Exact.vector_same (h : Exact s) (hs : Shape s) (hn : n ∈ s.completeEltSet.nodes) (he : e ∈ (s.node n).edges)
    (hv : s.isVisible e = true) (ht : s.touches m e) : (s.node m).partID = (s.node n).partID := by
  obtain ⟨hmem, htn⟩ := (hs.mem_vector hn).1 he
  rcases St.adj_of_touches hmem hv ht htn with rfl | hadj
  · rfl
  · exact (h.coherent hs).same m n hadj

theorem St.push_visible {visible : Bool} (hk : k < s.edgesMade) :
    (s.push f t visible).isVisible k = s.isVisible k := by
  simp [St.isVisible, St.push, newEdge, St.setLocalEdges, St.setCompleteEdges, Nat.ne_of_lt hk]

theorem St.push_touches {visible : Bool} (hk : k < s.edgesMade) :
    (s.push f t visible).touches n k ↔ s.touches n k := by
  simp [St.touches, St.push, newEdge, St.setLocalEdges, St.setCompleteEdges, Nat.ne_of_lt hk]

/-- A new edge leaves all IDs alone if it is invisible or its ends have one ID already. -/
theorem Exact.addEdge_same (h : Exact s) (hs : Shape s) (hy : Synced s) (visible : Bool)
    (hf : f ∈ s.completeEltSet.nodes) (ht : t ∈ s.completeEltSet.nodes)
    (hft : visible = true → (s.node f).partID = (s.node t).partID) (m : NodeRef) :
    ((VisibleLocality.addEdge s.edgesMade (Topo.newEdge f t visible s)).node m).partID = (s.node m).partID := by
  have hnew : ∀ n, n = f ∨ n = t → (s.push f t visible).isVisible s.edgesMade = true →
      ∀ m, (s.push f t visible).touches m s.edgesMade → (s.node m).partID = (s.node n).partID := by
    intro n hn hv m hm
    simp only [St.isVisible, St.touches, St.push, newEdge, St.setLocalEdges, St.setCompleteEdges,
      Function.update_self] at hv hm
    have := hft hv
    rcases hn with rfl | rfl <;> rcases hm with rfl | rfl <;> simp [*]
  have hvec : ∀ n ∈ s.completeEltSet.nodes, ∀ x ∈ (s.node n).edges, (s.push f t visible).isVisible x = true →
      ∀ m, (s.push f t visible).touches m x → (s.node m).partID = (s.node n).partID := by
    intro n hn x hx hv m hm
    have hlt := (hs.ends n x hx).1
    exact h.vector_same hs hn hx (by rwa [St.push_visible hlt] at hv) ((St.push_touches hlt).1 hm)
  have hfirst : ∀ m, ((Node.addEdge f s.edgesMade (s.push f t visible)).node m).partID = (s.node m).partID :=
    Node.addEdge_same fun x hx hv m hm => by
      rcases List.mem_append.1 hx with hx | hx
      · exact hvec f hf x hx hv m hm
      · obtain rfl := List.mem_singleton.1 hx
        exact hnew f (.inl rfl) hv m hm
  rw [hs.addEdge_new hy, St.countEdge_node, Node.addEdge_same fun x hx hv m hm => ?_, hfirst]
  rw [hfirst, hfirst]
  simp only [Node.addEdge_visible, St.touches, Node.addEdge_edge] at hv hm
  rw [Node.addEdge_edges] at hx
  have hx : x ∈ (s.node t).edges ∨ x = s.edgesMade := by
    split at hx
    · rename_i htf; subst htf
      simpa [St.push, newEdge, St.setLocalEdges, St.setCompleteEdges] using hx
    · simpa [St.push, newEdge, St.setLocalEdges, St.setCompleteEdges] using hx
  rcases hx with hx | rfl
  · exact hvec t ht x hx hv m hm
  · exact hnew t (.inr rfl) hv m hm

theorem Exact.addInvisible (h : Exact s) (hs : Shape s) (hy : Synced s) (hf : f ∈ s.completeEltSet.nodes)
    (ht : t ∈ s.completeEltSet.nodes) :
    Exact (VisibleLocality.addEdge s.edgesMade (Topo.newEdge f t false s)) := by
  have hg := hs.addEdge_grown hy f t false
  have hpart := h.addEdge_same hs hy false hf ht (by simp)
  have hadj : (VisibleLocality.addEdge s.edgesMade (Topo.newEdge f t false s)).Adj = s.Adj := by
    ext a b
    exact (hg.adj hs a b).trans (by simp)
  refine ⟨fun a b ha hb => ?_, fun n hn => ?_⟩
  · rw [hpart, hpart, St.Conn, hadj]
    exact h.iff a b ((hg.live hf ht).1 ha) ((hg.live hf ht).1 hb)
  · rw [hpart, hg.cnt]
    exact h.drawn n (hg.nodesMade ▸ hn)

/-- What the third loop has done for the nodes `ps`. -/
structure Built (ps : List NodeRef) (s s' : St) : Prop where
  shape : Shape s'
  synced : Synced s'
  exact : Exact s'
  nodes : s'.completeEltSet.nodes = s.completeEltSet.nodes
  edgesMade : s.edgesMade ≤ s'.edgesMade
  old : ∀ k < s.edgesMade, s'.edge k = s.edge k
  edges : ∃ new, s'.completeEltSet.edges = s.completeEltSet.edges ++ new ∧ new.length = ps.length - 1 ∧
    ∀ e ∈ new, s'.isVisible e = false
  chain : ps.IsChain s'.Linked

theorem buildInvisible_built : ∀ (ps : List NodeRef) (s : St), Shape s → Synced s → Exact s →
    (∀ n ∈ ps, n ∈ s.completeEltSet.nodes) → Built ps s (buildInvisible ps s)
  | [], s, hs, hy, he, _ => ⟨hs, hy, he, rfl, Nat.le_refl _, fun _ _ => rfl, ⟨[], by simp [buildInvisible]⟩, .nil⟩
  | [a], s, hs, hy, he, _ =>
    ⟨hs, hy, he, rfl, Nat.le_refl _, fun _ _ => rfl, ⟨[], by simp [buildInvisible]⟩, .singleton a⟩
  | a :: b :: ps, s, hs, hy, he, hps => by
    have ha := hps a (by simp)
    have hb := hps b (by simp)
    have hg := hs.addEdge_grown hy a b false
    have hnodes : (VisibleLocality.addEdge s.edgesMade (Topo.newEdge a b false s)).completeEltSet.nodes =
        s.completeEltSet.nodes := by rw [hg.complete]
    have ih := buildInvisible_built (b :: ps) _ (hg.shape hs ha hb) (hg.synced hy) (he.addInvisible hs hy ha hb)
      fun n hn => by rw [hnodes]; exact hps n (List.mem_cons_of_mem _ hn)
    have hmade : s.edgesMade < (VisibleLocality.addEdge s.edgesMade (Topo.newEdge a b false s)).edgesMade := by
      rw [hg.edgesMade]; exact Nat.lt_succ_self _
    have hedge : (buildInvisible (a :: b :: ps) s).edge s.edgesMade = ⟨a, b, false⟩ :=
      (ih.old _ hmade).trans hg.edge_new
    obtain ⟨new, hnew, hlen, hinv⟩ := ih.edges
    rw [hg.complete] at hnew
    have hnew : (buildInvisible (a :: b :: ps) s).completeEltSet.edges =
        s.completeEltSet.edges ++ s.edgesMade :: new := by
      rw [buildInvisible, hnew, List.append_assoc]; rfl
    refine ⟨ih.shape, ih.synced, ih.exact, ih.nodes.trans hnodes, Nat.le_trans (Nat.le_of_lt hmade) ih.edgesMade,
      fun k hk => (ih.old k (Nat.lt_trans hk hmade)).trans (hg.edge_old hk), ⟨_, hnew, ?_, ?_⟩, ?_⟩
    · simpa using hlen
    · intro e hm
      rcases List.mem_cons.1 hm with rfl | hm
      · rw [St.isVisible, hedge]
      · exact hinv e hm
    · refine .cons_cons ⟨s.edgesMade, by rw [hnew]; simp, ?_⟩ ih.chain
      rw [St.joins, hedge]
      exact .inl ⟨rfl, rfl⟩

theorem VisibleLocality.addEdge_nodes (e : EdgeRef) (s : St) :
    (addEdge e s).completeEltSet.nodes = s.completeEltSet.nodes := by
  have hadd : ∀ s, (GraphEltSet.addEdge e s).completeEltSet.nodes = s.completeEltSet.nodes := fun s => by
    unfold GraphEltSet.addEdge
    split
    · rfl
    · simp [St.setCompleteEdges]
  unfold addEdge
  split
  · rfl
  · dsimp only [St.countEdge_complete]
    split
    · rfl
    · rw [hadd]; rfl

/-- The rule for the third loop. -/
theorem buildInvisible_rule {I : St → Prop}
    (hI : ∀ s a b, I s → a ∈ s.completeEltSet.nodes → b ∈ s.completeEltSet.nodes →
      I (VisibleLocality.addEdge s.edgesMade (Topo.newEdge a b false s))) :
    ∀ (ps : List NodeRef) (s : St), I s → (∀ n ∈ ps, n ∈ s.completeEltSet.nodes) → I (buildInvisible ps s)
  | [], _, hs, _ => hs
  | [_], _, hs, _ => hs
  | a :: b :: ps, s, hs, hps => by
    refine buildInvisible_rule hI (b :: ps) _ (hI s a b hs (hps a (by simp)) (hps b (by simp))) fun n hn => ?_
    rw [VisibleLocality.addEdge_nodes]
    exact hps n (List.mem_cons_of_mem _ hn)

/-! ## `updatePartitions` -/

/-- The rule for `updatePartitions`: it only deletes invisible edges, and adds new ones. -/
theorem updatePartitions_rule {I : St → Prop} (hnd : ∀ s, I s → s.completeEltSet.edges.Nodup)
    (hdel : ∀ s e, I s → e ∈ s.completeEltSet.edges → s.isVisible e = false →
      I (VisibleLocality.deleteEdge (some e) s))
    (hadd : ∀ s a b, I s → a ∈ s.completeEltSet.nodes → b ∈ s.completeEltSet.nodes →
      I (VisibleLocality.addEdge s.edgesMade (Topo.newEdge a b false s))) (h : I s) : I (updatePartitions s) := by
  have h1 := (removeInvisible_rule hnd hdel s.completeEltSet.edges.length s h fun e he _ => by
    rwa [List.take_of_length_le (Nat.le_refl _)]).1
  exact buildInvisible_rule hadd _ _ h1 (partitions_subset _)

/-- The invisible edges number one less than the components, and all edges together connect the graph. -/
structure Spanned (s : St) : Prop where
  count : ∃ k, Graph.Components s.Adj s.completeEltSet.nodes k ∧
    (s.completeEltSet.edges.filter fun e => !s.isVisible e).length = k - 1
  whole : ∀ a ∈ s.completeEltSet.nodes, ∀ b ∈ s.completeEltSet.nodes, Graph.Connected s.Linked a b

/-- The states between two calls. -/
structure Good (s : St) : Prop where
  shape : Shape s
  synced : Synced s
  exact : Exact s
  spanned : Spanned s

theorem St.linked_symm (s : St) (a b : NodeRef) (h : s.Linked a b) : s.Linked b a :=
  let ⟨e, he, hj⟩ := h
  ⟨e, he, hj.symm⟩

/-- **`updatePartitions` leaves exact IDs and a connected graph behind.** -/
theorem updatePartitions_good (hs : Shape s) (hy : Synced s) (hd : Draining s) : Good (updatePartitions s) := by
  unfold updatePartitions
  obtain ⟨hs1, hy1, hd1, hv1⟩ := removeInvisible_spec s.completeEltSet.edges.length s hs hy hd
    fun e he _ => by rw [List.take_length]; exact he
  generalize removeInvisible s.completeEltSet.edges.length s = s1 at hs1 hy1 hd1 hv1
  have he1 := hd1.coherent.exact hs1 hv1
  have htr := he1.partitions hs1
  have hb := buildInvisible_built (partitions s1) s1 hs1 hy1 he1 htr.sub
  obtain ⟨new, hnew, hlen, hinv⟩ := hb.edges
  have hadj : (buildInvisible (partitions s1) s1).Adj = s1.Adj := by
    have hold : ∀ k ∈ s1.completeEltSet.edges, (buildInvisible (partitions s1) s1).edge k = s1.edge k :=
      fun k hk => hb.old k (hs1.edges k hk).1
    ext a b
    simp only [St.Adj, St.AdjOn, hnew, List.mem_append, St.joins, St.isVisible]
    constructor
    · rintro ⟨k, hk | hk, hv, hj⟩
      · rw [hold k hk] at hv hj
        exact ⟨k, hk, hv, hj⟩
      · have := hinv k hk
        rw [St.isVisible, hv] at this
        cases this
    · rintro ⟨k, hk, h⟩
      exact ⟨k, .inl hk, by rw [hold k hk]; exact h⟩
  have hcount : ((buildInvisible (partitions s1) s1).completeEltSet.edges.filter fun e =>
      !(buildInvisible (partitions s1) s1).isVisible e) = new := by
    rw [hnew, List.filter_append, List.filter_eq_nil_iff.2 fun e he => ?_, List.filter_eq_self.2 fun e he => by
      simp [hinv e he], List.nil_append]
    rw [St.isVisible, hb.old e (hs1.edges e he).1]
    simpa [St.isVisible] using hv1 e he
  refine ⟨hb.shape, hb.synced, hb.exact, ⟨⟨(partitions s1).length, ?_, by rw [hcount]; exact hlen⟩, ?_⟩⟩
  · rw [hadj, hb.nodes]
    exact ⟨_, htr, rfl⟩
  · rw [hb.nodes]
    intro a ha b hb'
    refine htr.connects (St.linked_symm _) (fun a b hab => ?_) hb.chain ha hb'
    rw [← hadj] at hab
    obtain ⟨e, he, -, hj⟩ := hab
    exact ⟨e, he, hj⟩

end Topo
