import Awds.Topo.Panel

/-!
# `Node.addEdge` and `Node.removeEdge` in closed form

Everything else is proved from `Node.removeEdge_eq` and `Node.addEdge_eq`: which fields they change, and
that `addEdge` hands the partition ID at the first visible edge to the ends of all visible edges.
-/

namespace Topo

variable {s : St} {n m f t : NodeRef} {e k : EdgeRef}

/-- `n` is an end of `e`. -/
def St.touches (s : St) (n : NodeRef) (e : EdgeRef) : Prop := (s.edge e).getFrom = n ∨ (s.edge e).getTo = n

instance (s : St) (n : NodeRef) (e : EdgeRef) : Decidable (s.touches n e) := inferInstanceAs (Decidable (_ ∨ _))

/-! ## `visibleEdgeCnt` -/

section
variable (s : St) (e : EdgeRef) (d : Int)

@[simp] theorem St.countEdge_node : (s.countEdge e d).node = s.node := rfl
@[simp] theorem St.countEdge_nodesMade : (s.countEdge e d).nodesMade = s.nodesMade := rfl
@[simp] theorem St.countEdge_edge : (s.countEdge e d).edge = s.edge := rfl
@[simp] theorem St.countEdge_edgesMade : (s.countEdge e d).edgesMade = s.edgesMade := rfl
@[simp] theorem St.countEdge_cnt : (s.countEdge e d).globPartCnt = s.globPartCnt := rfl
@[simp] theorem St.countEdge_complete : (s.countEdge e d).completeEltSet = s.completeEltSet := rfl
@[simp] theorem St.countEdge_local : (s.countEdge e d).visibleLocality = s.visibleLocality := rfl

end

/-! ## `Node.removeEdge` -/

theorem Node.removeEdge_eq (n : NodeRef) (e : EdgeRef) (s : St) :
    Node.removeEdge n e s =
      { s with
        node := Function.update s.node n
          { s.node n with
            partID := if (s.node n).edges.length = 1 then partIDOf s.globPartCnt else (s.node n).partID
            edges := (s.node n).edges.erase e }
        globPartCnt := if (s.node n).edges.length = 1 then s.globPartCnt + 1 else s.globPartCnt } := by
  unfold Node.removeEdge
  split <;> simp [St.setEdges, St.drawPartID, St.setPartID, St.setNode]

section
variable (n : NodeRef) (e : EdgeRef) (s : St)

@[simp] theorem Node.removeEdge_edge : (Node.removeEdge n e s).edge = s.edge := by rw [removeEdge_eq]
@[simp] theorem Node.removeEdge_nodesMade : (Node.removeEdge n e s).nodesMade = s.nodesMade := by
  rw [removeEdge_eq]
@[simp] theorem Node.removeEdge_edgesMade : (Node.removeEdge n e s).edgesMade = s.edgesMade := by
  rw [removeEdge_eq]
@[simp] theorem Node.removeEdge_complete : (Node.removeEdge n e s).completeEltSet = s.completeEltSet := by
  rw [removeEdge_eq]
@[simp] theorem Node.removeEdge_local : (Node.removeEdge n e s).visibleLocality = s.visibleLocality := by
  rw [removeEdge_eq]
@[simp] theorem Node.removeEdge_visible : (Node.removeEdge n e s).isVisible = s.isVisible := by
  funext k; simp [St.isVisible]

@[simp] theorem Node.removeEdge_self : ((Node.removeEdge n e s).node n).edges = (s.node n).edges.erase e := by
  rw [removeEdge_eq]; simp

end

@[simp] theorem Node.removeEdge_ne (h : m ≠ n) : (Node.removeEdge n e s).node m = s.node m := by
  rw [removeEdge_eq]; simp [h]

theorem Node.removeEdge_edges (n m : NodeRef) (e : EdgeRef) (s : St) :
    ((Node.removeEdge n e s).node m).edges = if m = n then (s.node n).edges.erase e else (s.node m).edges := by
  split
  · rename_i h; subst h; exact removeEdge_self ..
  · rename_i h; rw [removeEdge_ne h]

/-! ## `Node.addEdge` -/

theorem relabel_eq (part : Int) (s : St) (e : EdgeRef) :
    relabel part s e =
      { s with
        node := fun n =>
          if s.isVisible e = true ∧ s.touches n e then { s.node n with partID := part } else s.node n } := by
  unfold relabel
  split
  · rename_i hv
    simp only [hv, true_and, St.setPartID, St.setNode]
    refine congrArg (fun g => ({ s with node := g } : St)) (funext fun n => ?_)
    by_cases hf : (s.edge e).getFrom = n <;> by_cases ht : (s.edge e).getTo = n
    all_goals simp [Function.update_apply, St.touches, hf, ht, eq_comm (a := n)]
  · rename_i hv; simp [hv]

/-- The ends of the visible edges of `es` are relabelled. -/
theorem foldl_relabel (part : Int) (es : List EdgeRef) (s : St) :
    es.foldl (relabel part) s =
      { s with
        node := fun n =>
          if ∃ e ∈ es, s.isVisible e = true ∧ s.touches n e then { s.node n with partID := part }
          else s.node n } := by
  induction es generalizing s with
  | nil => simp
  | cons e es ih =>
    rw [List.foldl_cons, relabel_eq, ih]
    refine congrArg (fun g => ({ s with node := g } : St)) (funext fun n => ?_)
    simp only [List.exists_mem_cons_iff]
    by_cases hn : ∃ x ∈ es, s.isVisible x = true ∧ s.touches n x
    · rw [if_pos (Or.inr hn)]
      refine (if_pos hn).trans ?_
      split <;> rfl
    · simp only [hn, or_false]
      exact if_neg hn

/-- The partition ID that `Node.addEdge` hands out, if there is a visible edge. -/
def St.newPart (s : St) (n : NodeRef) (e : EdgeRef) : Option Int :=
  (((s.node n).edges ++ [e]).find? s.isVisible).map fun k => (s.node (s.edge k).getFrom).partID

/-- The partition ID of `m` after `Node.addEdge n e`. -/
def St.relabelled (s : St) (n : NodeRef) (e : EdgeRef) (m : NodeRef) : Int :=
  match s.newPart n e with
  | none => (s.node m).partID
  | some part =>
    if ∃ x ∈ (s.node n).edges ++ [e], s.isVisible x = true ∧ s.touches m x then part else (s.node m).partID

theorem find?_dropWhile_not {α : Type*} (p : α → Bool) (l : List α) :
    (l.dropWhile (!p ·)).head? = l.find? p ∧ ∀ x, x ∈ l.dropWhile (!p ·) ∧ p x = true ↔ x ∈ l ∧ p x = true := by
  induction l with
  | nil => simp
  | cons a l ih =>
    by_cases ha : p a = true
    · simp [ha]
    · have hne : ∀ x, p x = true → x ≠ a := fun x hx hxa => ha (hxa ▸ hx)
      refine ⟨by simpa [ha] using ih.1, fun x => ?_⟩
      simp only [List.dropWhile_cons, ha, Bool.not_false, if_true, ih.2 x, List.mem_cons]
      exact and_congr_left fun hx => by simp [hne x hx]

theorem Node.addEdge_eq (n : NodeRef) (e : EdgeRef) (s : St) :
    Node.addEdge n e s =
      { s with
        node := fun m =>
          { s.node m with
            edges := if m = n then (s.node n).edges ++ [e] else (s.node m).edges
            partID := s.relabelled n e m } } := by
  have hd := find?_dropWhile_not (fun k => (s.edge k).isVisible) ((s.node n).edges ++ [e])
  have hpart : ∀ m, (Function.update s.node n { s.node n with edges := (s.node n).edges ++ [e] } m).partID =
      (s.node m).partID := fun m => by
    by_cases hm : m = n
    · subst hm; simp
    · simp [hm]
  have hedges : ∀ m, Function.update s.node n { s.node n with edges := (s.node n).edges ++ [e] } m =
      { s.node m with edges := if m = n then (s.node n).edges ++ [e] else (s.node m).edges } := fun m => by
    by_cases hm : m = n
    · subst hm; simp
    · simp [hm]
  simp only [Node.addEdge, St.setEdges, St.setNode, Function.update_self, St.isVisible]
  cases hdw : ((s.node n).edges ++ [e]).dropWhile (fun k => !(s.edge k).isVisible) with
  | nil =>
    rw [hdw] at hd
    have hfind : ((s.node n).edges ++ [e]).find? s.isVisible = none := hd.1.symm
    simp only [St.relabelled, St.newPart, hfind, Option.map_none]
    exact congrArg (fun g => ({ s with node := g } : St)) (funext hedges)
  | cons k rest =>
    rw [hdw] at hd
    have hfind : ((s.node n).edges ++ [e]).find? s.isVisible = some k := hd.1.symm
    have hex : ∀ m, (∃ x ∈ k :: rest, s.isVisible x = true ∧ s.touches m x) ↔
        ∃ x ∈ (s.node n).edges ++ [e], s.isVisible x = true ∧ s.touches m x := by
      intro m
      constructor
      · rintro ⟨x, hx, hv, ht⟩
        exact ⟨x, ((hd.2 x).1 ⟨hx, hv⟩).1, hv, ht⟩
      · rintro ⟨x, hx, hv, ht⟩
        exact ⟨x, ((hd.2 x).2 ⟨hx, hv⟩).1, hv, ht⟩
    simp only [foldl_relabel, St.relabelled, St.newPart, hfind, Option.map_some, hpart]
    refine congrArg (fun g => ({ s with node := g } : St)) (funext fun m => ?_)
    by_cases hm : ∃ x ∈ (s.node n).edges ++ [e], s.isVisible x = true ∧ s.touches m x
    · rw [if_pos hm]
      exact (if_pos ((hex m).2 hm)).trans (by rw [hedges])
    · rw [if_neg hm]
      exact (if_neg fun h => hm ((hex m).1 h)).trans (hedges m)

section
variable (n : NodeRef) (e : EdgeRef) (s : St)

@[simp] theorem Node.addEdge_edge : (Node.addEdge n e s).edge = s.edge := by rw [addEdge_eq]
@[simp] theorem Node.addEdge_nodesMade : (Node.addEdge n e s).nodesMade = s.nodesMade := by rw [addEdge_eq]
@[simp] theorem Node.addEdge_edgesMade : (Node.addEdge n e s).edgesMade = s.edgesMade := by rw [addEdge_eq]
@[simp] theorem Node.addEdge_cnt : (Node.addEdge n e s).globPartCnt = s.globPartCnt := by rw [addEdge_eq]
@[simp] theorem Node.addEdge_complete : (Node.addEdge n e s).completeEltSet = s.completeEltSet := by
  rw [addEdge_eq]
@[simp] theorem Node.addEdge_local : (Node.addEdge n e s).visibleLocality = s.visibleLocality := by
  rw [addEdge_eq]
@[simp] theorem Node.addEdge_visible : (Node.addEdge n e s).isVisible = s.isVisible := by
  funext k; simp [St.isVisible]

theorem Node.addEdge_edges (m : NodeRef) :
    ((Node.addEdge n e s).node m).edges = if m = n then (s.node n).edges ++ [e] else (s.node m).edges := by
  rw [addEdge_eq]

theorem Node.addEdge_partID (m : NodeRef) : ((Node.addEdge n e s).node m).partID = s.relabelled n e m := by
  rw [addEdge_eq]

end

end Topo
