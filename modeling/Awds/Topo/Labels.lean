import Awds.Lib.Connect
import Awds.Topo.Grow

/-!
# Partition IDs and components

`Exact` is what the partition IDs are for: two nodes have the same one iff visible edges connect them.
Taking edges away goes through states in which only `Coherent` holds: a node whose edges have all become
invisible is `Stale` and keeps its ID until the last of them is removed. Only then `Node.removeEdge` draws
a new one.
-/

namespace Topo

variable {s s' : St} {n m f t a b : NodeRef} {e k : EdgeRef}

/-! ## Adjacency -/

def St.joins (s : St) (e : EdgeRef) (a b : NodeRef) : Prop :=
  ((s.edge e).getFrom = a ∧ (s.edge e).getTo = b) ∨ ((s.edge e).getFrom = b ∧ (s.edge e).getTo = a)

/-- A visible edge of `es` joins `a` and `b`. -/
def St.AdjOn (s : St) (es : List EdgeRef) (a b : NodeRef) : Prop :=
  ∃ e ∈ es, s.isVisible e = true ∧ s.joins e a b

/-- A visible edge of the graph joins `a` and `b`. -/
def St.Adj (s : St) : NodeRef → NodeRef → Prop := s.AdjOn s.completeEltSet.edges

/-- Connected by visible edges. -/
abbrev St.Conn (s : St) : NodeRef → NodeRef → Prop := Graph.Connected s.Adj

/-- An edge of the graph, visible or not, joins `a` and `b`. -/
def St.Linked (s : St) (a b : NodeRef) : Prop := ∃ e ∈ s.completeEltSet.edges, s.joins e a b

theorem St.AdjOn.symm {es : List EdgeRef} (h : s.AdjOn es a b) : s.AdjOn es b a :=
  let ⟨e, he, hv, hj⟩ := h
  ⟨e, he, hv, hj.symm⟩

theorem St.adj_symm (s : St) (a b : NodeRef) (h : s.Adj a b) : s.Adj b a := St.AdjOn.symm h

theorem St.joins_touches (h : s.joins e a b) : s.touches a e ∧ s.touches b e := by
  rcases h with ⟨rfl, rfl⟩ | ⟨rfl, rfl⟩
  · exact ⟨.inl rfl, .inr rfl⟩
  · exact ⟨.inr rfl, .inl rfl⟩

/-- The ends of one visible edge are equal or adjacent. -/
theorem St.adj_of_touches (he : e ∈ s.completeEltSet.edges) (hv : s.isVisible e = true) (ha : s.touches a e)
    (hb : s.touches b e) : a = b ∨ s.Adj a b := by
  rcases ha with rfl | rfl <;> rcases hb with rfl | rfl
  · exact .inl rfl
  · exact .inr ⟨e, he, hv, .inl ⟨rfl, rfl⟩⟩
  · exact .inr ⟨e, he, hv, .inr ⟨rfl, rfl⟩⟩
  · exact .inl rfl

theorem Shape.adj_mem (h : Shape s) (hab : s.Adj a b) : a ∈ s.completeEltSet.nodes ∧ b ∈ s.completeEltSet.nodes :=
  let ⟨_, he, _, hj⟩ := hab
  ⟨h.node_of_touches he (St.joins_touches hj).1, h.node_of_touches he (St.joins_touches hj).2⟩

/-! ## The invariants -/

/-- `n` is in the graph or has no edges (yet). -/
def Live (s : St) (n : NodeRef) : Prop := n < s.nodesMade ∧ (n ∈ s.completeEltSet.nodes ∨ (s.node n).edges = [])

/-- `n` has edges, none of them visible. -/
def Stale (s : St) (n : NodeRef) : Prop := (s.node n).edges ≠ [] ∧ ∀ e ∈ (s.node n).edges, s.isVisible e = false

/-- Every partition ID was drawn from `glob_part_cnt`. -/
def Drawn (s : St) : Prop := ∀ n < s.nodesMade, ∃ k < s.globPartCnt, (s.node n).partID = partIDOf k

/-- Partition IDs tell the components apart. -/
structure Exact (s : St) : Prop where
  iff : ∀ a b, Live s a → Live s b → ((s.node a).partID = (s.node b).partID ↔ s.Conn a b)
  drawn : Drawn s

/-- The same while invisible edges are being removed. -/
structure Coherent (s : St) : Prop where
  same : ∀ a b, s.Adj a b → (s.node a).partID = (s.node b).partID
  apart : ∀ a b, Live s a → Live s b → (s.node a).partID = (s.node b).partID → s.Conn a b ∨ Stale s a ∨ Stale s b
  drawn : Drawn s
  listed : ∀ e ∈ s.completeEltSet.edges, s.isVisible e = true → ∀ n, s.touches n e → e ∈ (s.node n).edges

/-- IDs drawn so far, and the most that taking all edges away can draw. -/
def St.cost (s : St) : Nat := s.globPartCnt + 2 * s.completeEltSet.edges.length

theorem bmod_inj {j k w : Nat} (hj : j < w) (hk : k < w) (h : Int.bmod j w = Int.bmod k w) : j = k := by
  have hmod : Int.bmod j w % w = Int.bmod k w % w := by rw [h]
  rw [Int.bmod_emod, Int.bmod_emod, Int.emod_eq_of_lt (by omega) (by omega),
    Int.emod_eq_of_lt (by omega) (by omega)] at hmod
  exact Int.ofNat_inj.1 hmod

/-- Less than 2³² draws do not repeat. -/
theorem partIDOf_inj {j k : Nat} (hj : j < 2 ^ 32) (hk : k < 2 ^ 32) (h : partIDOf j = partIDOf k) : j = k :=
  bmod_inj hj hk h

theorem Exact.coherent (h : Exact s) (hs : Shape s) : Coherent s where
  same := fun a b hab => by
    obtain ⟨ha, hb⟩ := hs.adj_mem hab
    exact (h.iff a b ⟨(hs.nodes a ha).1, .inl ha⟩ ⟨(hs.nodes b hb).1, .inl hb⟩).2 (.of_adj hab)
  apart := fun a b ha hb hp => .inl ((h.iff a b ha hb).1 hp)
  drawn := h.drawn
  listed := fun _ he _ _ ht => (hs.mem_vector_iff he).2 ht

/-- Connected nodes have one ID. -/
theorem Coherent.conn (h : Coherent s) (hc : s.Conn a b) : (s.node a).partID = (s.node b).partID := by
  induction hc with
  | refl => rfl
  | tail _ hs ih => exact ih.trans (h.same _ _ hs)

/-- Without invisible edges no node is stale. -/
theorem Coherent.exact (h : Coherent s) (hs : Shape s)
    (hv : ∀ e ∈ s.completeEltSet.edges, s.isVisible e = true) : Exact s := by
  have hno : ∀ n, Live s n → ¬Stale s n := by
    rintro n ⟨-, hn | hn⟩ ⟨hne, hinv⟩
    · obtain ⟨e, he⟩ := List.exists_mem_of_ne_nil _ hne
      have := hv e ((hs.mem_vector hn).1 he).1
      rw [hinv e he] at this
      cases this
    · exact hne hn
  refine ⟨fun a b ha hb => ⟨fun hp => ?_, h.conn⟩, h.drawn⟩
  exact (h.apart a b ha hb hp).resolve_right (not_or.2 ⟨hno a ha, hno b hb⟩)

/-! ## Taking an invisible edge away -/

theorem Node.removeEdge_cnt (n : NodeRef) (e : EdgeRef) (s : St) :
    s.globPartCnt ≤ (Node.removeEdge n e s).globPartCnt ∧
      (Node.removeEdge n e s).globPartCnt ≤ s.globPartCnt + 1 := by
  rw [removeEdge_eq]
  dsimp only
  split <;> omega

theorem Node.removeEdge_adj (n : NodeRef) (e : EdgeRef) (s : St) : (Node.removeEdge n e s).Adj = s.Adj := by
  ext a b
  simp [St.Adj, St.AdjOn, St.joins]

/-- The visible edges stay where they are. -/
theorem Coherent.removeEdge_listed (h : Coherent s) (hv : s.isVisible e = false) :
    ∀ k ∈ (Node.removeEdge n e s).completeEltSet.edges, (Node.removeEdge n e s).isVisible k = true →
      ∀ m, (Node.removeEdge n e s).touches m k → k ∈ ((Node.removeEdge n e s).node m).edges := by
  intro k hk hkv m ht
  simp only [Node.removeEdge_complete, Node.removeEdge_visible, St.touches, Node.removeEdge_edge] at hk hkv ht
  rw [Node.removeEdge_edges]
  split
  · rename_i hmn
    subst hmn
    refine (List.mem_erase_of_ne ?_).2 (h.listed k hk hkv m ht)
    rintro rfl; rw [hv] at hkv; cases hkv
  · exact h.listed k hk hkv m ht

/-- With its last edge `n` is alone, and its ID is new. -/
theorem Coherent.removeEdge_last (h : Coherent s) (he : e ∈ (s.node n).edges) (hv : s.isVisible e = false)
    (hroom : s.globPartCnt < 2 ^ 32) (hlen : (s.node n).edges.length = 1) : Coherent (Node.removeEdge n e s) := by
  have hadj := Node.removeEdge_adj n e s
  have hvec : (s.node n).edges = [e] := by
    obtain ⟨k, hk⟩ := List.length_eq_one_iff.1 hlen
    rw [hk] at he ⊢
    rw [List.mem_singleton.1 he]
  have hpart : ((Node.removeEdge n e s).node n).partID = partIDOf s.globPartCnt := by
    rw [Node.removeEdge_eq]; simp [hlen]
  have hcnt : (Node.removeEdge n e s).globPartCnt = s.globPartCnt + 1 := by
    rw [Node.removeEdge_eq]; simp [hlen]
  have hnew : ∀ m, m ≠ n → m < s.nodesMade →
      ((Node.removeEdge n e s).node m).partID ≠ ((Node.removeEdge n e s).node n).partID := by
    intro m hm hmade heq
    obtain ⟨k, hk, hpk⟩ := h.drawn m hmade
    rw [Node.removeEdge_ne hm, hpk, hpart] at heq
    exact Nat.ne_of_lt hk (partIDOf_inj (Nat.lt_trans hk hroom) hroom heq)
  have halone : ∀ m, ¬s.Adj n m := by
    rintro m ⟨k, hk, hkv, hj⟩
    have hkn := h.listed k hk hkv n (St.joins_touches hj).1
    rw [hvec, List.mem_singleton] at hkn
    rw [hkn, hv] at hkv
    cases hkv
  refine ⟨fun a b hab => ?_, fun a b ha hb hp => ?_, fun m hm => ?_, h.removeEdge_listed hv⟩
  · rw [hadj] at hab
    have ha : a ≠ n := by rintro rfl; exact halone b hab
    have hb : b ≠ n := by rintro rfl; exact halone a (s.adj_symm _ _ hab)
    rw [Node.removeEdge_ne ha, Node.removeEdge_ne hb]
    exact h.same a b hab
  · have hma : a < s.nodesMade := by simpa using ha.1
    have hmb : b < s.nodesMade := by simpa using hb.1
    by_cases han : a = n
    · subst han
      by_cases hbn : b = a
      · subst hbn; exact .inl (.refl _)
      · exact absurd hp.symm (hnew b hbn hmb)
    · by_cases hbn : b = n
      · subst hbn; exact absurd hp (hnew a han hma)
      · unfold St.Conn
        rw [hadj]
        simp only [Live, Stale, Node.removeEdge_ne han, Node.removeEdge_ne hbn, Node.removeEdge_complete,
          Node.removeEdge_nodesMade, Node.removeEdge_visible] at ha hb hp ⊢
        exact h.apart a b ha hb hp
  · rw [hcnt]
    by_cases hmn : m = n
    · subst hmn; exact ⟨_, Nat.lt_succ_self _, hpart⟩
    · obtain ⟨k, hk, hp⟩ := h.drawn m (by simpa using hm)
      exact ⟨k, Nat.lt_succ_of_lt hk, by rw [Node.removeEdge_ne hmn]; exact hp⟩

/-- With edges left `n` keeps its ID, and stays stale if it was. -/
theorem Coherent.removeEdge_left (h : Coherent s) (he : e ∈ (s.node n).edges) (hv : s.isVisible e = false)
    (hlen : (s.node n).edges.length ≠ 1) : Coherent (Node.removeEdge n e s) := by
  have hpart : ∀ m, ((Node.removeEdge n e s).node m).partID = (s.node m).partID := fun m => by
    by_cases hm : m = n
    · subst hm; rw [Node.removeEdge_eq]; simp [hlen]
    · rw [Node.removeEdge_ne hm]
  have hne : (s.node n).edges.erase e ≠ [] := fun hnil => by
    have := List.length_erase_of_mem he
    have := List.length_pos_of_mem he
    rw [hnil, List.length_nil] at *
    omega
  have hlive : ∀ m, Live (Node.removeEdge n e s) m → Live s m := by
    rintro m ⟨hm, hm'⟩
    rw [Node.removeEdge_edges] at hm'
    refine ⟨by simpa using hm, ?_⟩
    split at hm'
    · exact hm'.imp (by simp) fun h => absurd h hne
    · simpa using hm'
  have hstale : ∀ m, Stale s m → Stale (Node.removeEdge n e s) m := by
    rintro m ⟨hm, hm'⟩
    rw [Stale, Node.removeEdge_edges, Node.removeEdge_visible]
    split
    · rename_i hmn; subst hmn
      exact ⟨hne, fun k hk => hm' k (List.mem_of_mem_erase hk)⟩
    · exact ⟨hm, hm'⟩
  refine ⟨fun a b hab => ?_, fun a b ha hb hp => ?_, fun m hm => ?_, h.removeEdge_listed hv⟩
  · rw [Node.removeEdge_adj] at hab
    rw [hpart, hpart]
    exact h.same a b hab
  · rw [hpart, hpart] at hp
    unfold St.Conn
    rw [Node.removeEdge_adj]
    exact (h.apart a b (hlive a ha) (hlive b hb) hp).imp id (Or.imp (hstale a) (hstale b))
  · obtain ⟨k, hk, hp⟩ := h.drawn m (by simpa using hm)
    exact ⟨k, Nat.lt_of_lt_of_le hk (Node.removeEdge_cnt n e s).1, (hpart m).trans hp⟩

theorem Coherent.removeEdge (h : Coherent s) (he : e ∈ (s.node n).edges) (hv : s.isVisible e = false)
    (hroom : s.globPartCnt < 2 ^ 32) : Coherent (Node.removeEdge n e s) := by
  by_cases hlen : (s.node n).edges.length = 1
  · exact h.removeEdge_last he hv hroom hlen
  · exact h.removeEdge_left he hv hlen

theorem St.setCompleteEdges_adj (hv : s.isVisible e = false) :
    (s.setCompleteEdges (s.completeEltSet.edges.erase e)).Adj = s.Adj := by
  ext a b
  constructor
  · rintro ⟨k, hk, h⟩
    exact ⟨k, List.mem_of_mem_erase hk, h⟩
  · rintro ⟨k, hk, hkv, hj⟩
    refine ⟨k, (List.mem_erase_of_ne ?_).2 hk, hkv, hj⟩
    rintro rfl
    rw [hv] at hkv
    cases hkv

theorem Coherent.setCompleteEdges (h : Coherent s) (hv : s.isVisible e = false) :
    Coherent (s.setCompleteEdges (s.completeEltSet.edges.erase e)) where
  same := by rw [St.setCompleteEdges_adj hv]; exact h.same
  apart := by
    unfold St.Conn
    rw [St.setCompleteEdges_adj hv]
    exact h.apart
  drawn := h.drawn
  listed := fun k hk hkv => h.listed k (List.mem_of_mem_erase hk) hkv

/-- What every removal of an invisible edge keeps. -/
structure Draining (s : St) : Prop where
  coherent : Coherent s
  room : s.cost ≤ 2 ^ 32

theorem Draining.deleteEdge (h : Draining s) (hs : Shape s) (hv : s.isVisible e = false) :
    Draining (GraphEltSet.deleteEdge e s) := by
  unfold GraphEltSet.deleteEdge
  split
  · rename_i he
    have hlen := List.length_erase_of_mem he
    have hpos := List.length_pos_of_mem he
    have hroom := h.room
    have hf : e ∈ (s.node (s.edge e).getFrom).edges := (hs.mem_vector_iff he).2 (.inl rfl)
    have ht : e ∈ (s.node (s.edge e).getTo).edges := (hs.mem_vector_iff he).2 (.inr rfl)
    have h1 := h.coherent.setCompleteEdges hv
    have h2 := h1.removeEdge hf hv (by
      simp only [St.cost] at hroom
      simp only [St.setCompleteEdges]
      omega)
    have hc2 := Node.removeEdge_cnt (s.edge e).getFrom e (s.setCompleteEdges (s.completeEltSet.edges.erase e))
    -- the vector of the other end still has `e`
    have ht2 : e ∈ ((Node.removeEdge (s.edge e).getFrom e
        (s.setCompleteEdges (s.completeEltSet.edges.erase e))).node (s.edge e).getTo).edges := by
      rw [Node.removeEdge_edges]
      split
      · rename_i heq
        have hsub : [e, e].Sublist (s.node (s.edge e).getFrom).edges := by
          have hc : s.copies (s.edge e).getFrom e = [e, e] := by simp [St.copies, heq]
          rw [hs.vector _ (hs.node_of_touches he (.inl rfl)), List.flatMap_def, ← hc]
          exact List.sublist_flatten_of_mem (List.mem_map_of_mem he)
        exact (hsub.erase e).subset (by simp)
      · exact ht
    have h3 := h2.removeEdge ht2
      (by simpa [St.setCompleteEdges, St.isVisible] using hv) (by
        simp only [St.cost] at hroom
        simp only [St.setCompleteEdges] at hc2 ⊢
        omega)
    refine ⟨h3, ?_⟩
    have hc3 := Node.removeEdge_cnt (s.edge e).getTo e
      (Node.removeEdge (s.edge e).getFrom e (s.setCompleteEdges (s.completeEltSet.edges.erase e)))
    simp only [St.cost, Node.removeEdge_complete, St.setCompleteEdges] at hroom hc2 hc3 ⊢
    omega
  · exact h

theorem Draining.unlink {done : List EdgeRef} (h : Draining s) (hu : Unlinking (fun _ => False) n done s)
    (he : e ∈ s.completeEltSet.edges) (ht : s.touches n e) (hv : s.isVisible e = false) :
    Draining (GraphEltSet.unlink n e s) := by
  obtain ⟨m, htm, -, -, heq⟩ := GraphEltSet.unlink_eq ht
  have hlen := List.length_erase_of_mem he
  have hpos := List.length_pos_of_mem he
  have hroom := h.room
  have hm : e ∈ (s.node m).edges := by
    rcases (hu.shape.edges e he).2 m htm with hm | rfl | hm
    · exact (hu.shape.mem_vector hm).2 ⟨he, htm⟩
    · rw [hu.own]
      exact List.mem_append_right _ (List.mem_flatMap.2 ⟨e, he, s.mem_copies.2 htm⟩)
    · exact hm.elim
  rw [heq]
  have h1 := (h.coherent.setCompleteEdges hv).removeEdge hm hv (by
    simp only [St.cost] at hroom
    simp only [St.setCompleteEdges]
    omega)
  refine ⟨h1, ?_⟩
  have hc := Node.removeEdge_cnt m e (s.setCompleteEdges (s.completeEltSet.edges.erase e))
  simp only [St.cost, Node.removeEdge_complete, St.setCompleteEdges] at hroom hc ⊢
  omega

end Topo
