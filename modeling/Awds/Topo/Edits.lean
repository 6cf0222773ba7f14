import Awds.Topo.Integrity

/-!
# Any graph that can be built

`Made` is what any calls of the panel keep, hidden edges and edges without their nodes included: a node of the
graph was made, has an ID that leads to it and a label. The handlers of `InputParser` keep it too. A step of `edit`
is an element of a stream, a call, a new parser, or what the mouse, the layout and the metric panel do.
-/

namespace Topo

open TGPanel

variable {s s' t : St} {n m f : NodeRef} {e k : EdgeRef} {c : Call}

/-! ## What edges do not touch -/

/-- The nodes, their names and the ends of the edges are the same. -/
structure SameNames (s s' : St) : Prop where
  nodesMade : s'.nodesMade = s.nodesMade
  edgesMade : s'.edgesMade = s.edgesMade
  ends : ∀ k, (s'.edge k).getFrom = (s.edge k).getFrom ∧ (s'.edge k).getTo = (s.edge k).getTo
  id : ∀ n, (s'.node n).id = (s.node n).id ∧ (s'.node n).lbl = (s.node n).lbl
  nodes : s'.completeEltSet.nodes = s.completeEltSet.nodes
  registry : s'.completeEltSet.nodeIDRegistry = s.completeEltSet.nodeIDRegistry

namespace SameNames

theorem refl (s : St) : SameNames s s := ⟨rfl, rfl, fun _ => ⟨rfl, rfl⟩, fun _ => ⟨rfl, rfl⟩, rfl, rfl⟩

theorem trans (h : SameNames s t) (h' : SameNames t s') : SameNames s s' where
  nodesMade := h'.nodesMade.trans h.nodesMade
  edgesMade := h'.edgesMade.trans h.edgesMade
  ends k := ⟨(h'.ends k).1.trans (h.ends k).1, (h'.ends k).2.trans (h.ends k).2⟩
  id n := ⟨(h'.id n).1.trans (h.id n).1, (h'.id n).2.trans (h.id n).2⟩
  nodes := h'.nodes.trans h.nodes
  registry := h'.registry.trans h.registry

theorem removeEdge (s : St) (e : EdgeRef) : SameNames s (VisibleLocality.removeEdge s e) := by
  obtain ⟨hnode, hmade, hemade, -, hcomp, -⟩ := VisibleLocality.removeEdge_frame s e
  exact ⟨hmade, hemade, VisibleLocality.removeEdge_ends s e, fun n => by rw [hnode]; exact ⟨rfl, rfl⟩, by rw [hcomp],
    by rw [hcomp]⟩

theorem removeEdges : ∀ (es : List EdgeRef) (s : St), SameNames s (es.foldl VisibleLocality.removeEdge s)
  | [], s => .refl s
  | e :: es, s => (removeEdge s e).trans (removeEdges es _)

theorem removeNode (s : St) (n : NodeRef) : SameNames s (VisibleLocality.removeNode n s) := by
  unfold VisibleLocality.removeNode
  split
  · have hdrop : SameNames s { s with visibleLocality := s.visibleLocality.drop n (s.node n) } :=
      ⟨rfl, rfl, fun _ => ⟨rfl, rfl⟩, fun _ => ⟨rfl, rfl⟩, rfl, rfl⟩
    exact hdrop.trans (.removeEdges _ _)
  · exact .refl s

theorem deleteEdge (s : St) (e : EdgeRef) : SameNames s (VisibleLocality.deleteEdge (some e) s) := by
  obtain ⟨hedge, hmade, hemade, -, hcomp⟩ := GraphEltSet.deleteEdge_frame e (VisibleLocality.removeEdge s e)
  exact (removeEdge s e).trans ⟨hmade, hemade, fun k => by rw [VisibleLocality.deleteEdge, hedge]; exact ⟨rfl, rfl⟩,
    (GraphEltSet.deleteEdge_id e _).1, by rw [VisibleLocality.deleteEdge, hcomp], by rw [VisibleLocality.deleteEdge, hcomp]⟩

theorem addEdge (h : Sound s) (e : EdgeRef) : SameNames s (VisibleLocality.addEdge e s) := by
  rcases h.addEdge_cases e with ⟨-, heq⟩ | ⟨-, -, heq⟩ | ⟨-, ha⟩
  · rw [heq]; exact .refl s
  · rw [heq]
    exact ⟨by simp [St.setLocalEdges], by simp [St.setLocalEdges], fun k => by simp [St.setLocalEdges],
      fun n => by simp [St.setLocalEdges], by simp [St.setLocalEdges], by simp [St.setLocalEdges]⟩
  · exact ⟨ha.nodesMade, ha.edgesMade, fun k => by rw [ha.edge]; exact ⟨rfl, rfl⟩, ha.id, by rw [ha.complete],
      by rw [ha.complete]⟩

theorem unlink (n : NodeRef) (e : EdgeRef) (s : St) : SameNames s (GraphEltSet.unlink n e s) := by
  have hrem : ∀ m, SameNames s (Node.removeEdge m e (s.setCompleteEdges (s.completeEltSet.edges.erase e))) := fun m =>
    ⟨by simp [St.setCompleteEdges], by simp [St.setCompleteEdges], fun k => by simp [St.setCompleteEdges],
      fun n => by simp [St.setCompleteEdges], by simp [St.setCompleteEdges], by simp [St.setCompleteEdges]⟩
  unfold GraphEltSet.unlink
  split
  · exact hrem _
  · split
    · exact hrem _
    · exact .refl s

theorem unlinkFrom (n : NodeRef) : ∀ (fuel i : Nat) (s : St), SameNames s (GraphEltSet.unlinkFrom n fuel i s)
  | 0, _, s => .refl s
  | fuel + 1, i, s => by
    rw [GraphEltSet.unlinkFrom]
    split
    · exact .refl s
    · exact (unlink n _ s).trans (unlinkFrom n fuel (i + 1) _)

end SameNames

/-! ## Calls -/

structure Made (s : St) : Prop where
  sound : Sound s
  registered : Registered s
  nodes : ∀ n ∈ s.completeEltSet.nodes, n < s.nodesMade
  ends : ∀ e < s.edgesMade, (s.edge e).getFrom < s.nodesMade ∧ (s.edge e).getTo < s.nodesMade
  label : ∀ n < s.nodesMade, (s.node n).lbl = none → (s.node n).id = none

namespace Made

theorem congr (h : Made s) (hs : Sound s') (hn : SameNames s s') : Made s' where
  sound := hs
  registered := h.registered.congr hn.nodes hn.registry fun n _ => (hn.id n).1
  nodes n hm := by
    rw [hn.nodes] at hm
    rw [hn.nodesMade]
    exact h.nodes n hm
  ends e he := by
    rw [hn.edgesMade] at he
    rw [hn.nodesMade, (hn.ends e).1, (hn.ends e).2]
    exact h.ends e he
  label n hm := by
    rw [hn.nodesMade] at hm
    rw [(hn.id n).1, (hn.id n).2]
    exact h.label n hm

theorem touches_lt (h : Made s) (he : e < s.edgesMade) (ht : s.touches n e) : n < s.nodesMade := by
  rcases ht with rfl | rfl
  · exact (h.ends e he).1
  · exact (h.ends e he).2

theorem label_some (h : Made s) (hn : n ∈ s.completeEltSet.nodes) : ∃ lbl, (s.node n).lbl = some lbl := by
  obtain ⟨id, hid⟩ := h.registered.id n hn
  refine Option.ne_none_iff_exists'.1 fun hl => ?_
  rw [h.label n (h.nodes n hn) hl] at hid
  cases hid

theorem newNode (h : Made s) (id lbl : Option String) : Made (newNode id lbl s) := by
  have hold : ∀ n, n < s.nodesMade → (Topo.newNode id lbl s).node n = s.node n := fun n hn => by
    simp [Topo.newNode, Nat.ne_of_lt hn]
  refine ⟨h.sound.newNode id lbl, h.registered.congr rfl rfl fun n hn => by rw [hold n (h.nodes n hn)],
    fun n hn => Nat.lt_succ_of_lt (h.nodes n hn),
    fun e he => ⟨Nat.lt_succ_of_lt (h.ends e he).1, Nat.lt_succ_of_lt (h.ends e he).2⟩, fun n hn hl => ?_⟩
  rcases Nat.lt_succ_iff_lt_or_eq.1 hn with hn | rfl
  · rw [hold n hn] at hl ⊢
    exact h.label n hn hl
  · -- the label is taken from the ID
    have hnew : (Topo.newNode id lbl s).node s.nodesMade = ⟨id, lbl.or id, partIDOf s.globPartCnt, []⟩ := by
      simp [Topo.newNode]
    rw [hnew] at hl ⊢
    exact (Option.or_eq_none_iff.1 hl).2

theorem newEdge (h : Made s) {f t : NodeRef} (hf : f < s.nodesMade) (ht : t < s.nodesMade) (visible : Bool) :
    Made (newEdge f t visible s) := by
  refine ⟨h.sound.newEdge f t visible, h.registered.congr rfl rfl fun _ _ => rfl, h.nodes, fun e he => ?_, h.label⟩
  rcases Nat.lt_succ_iff_lt_or_eq.1 he with he | rfl
  · simpa [Topo.newEdge, Nat.ne_of_lt he] using h.ends e he
  · simpa [Topo.newEdge] using ⟨hf, ht⟩

theorem addEdge (h : Made s) (he : e < s.edgesMade) : Made (VisibleLocality.addEdge e s) :=
  h.congr (h.sound.addEdge he) (.addEdge h.sound e)

theorem deleteEdge (h : Made s) (e : EdgeRef) : Made (VisibleLocality.deleteEdge (some e) s) :=
  h.congr (h.sound.deleteEdge e) (.deleteEdge s e)

theorem addNew (h : Made s) {f t : NodeRef} (hf : f < s.nodesMade) (ht : t < s.nodesMade) (visible : Bool) :
    Made (VisibleLocality.addEdge s.edgesMade (Topo.newEdge f t visible s)) :=
  (h.newEdge hf ht visible).addEdge (Nat.lt_succ_self _)

theorem updatePartitions (h : Made s) : Made (updatePartitions s) :=
  updatePartitions_rule (fun _ h => h.sound.nodup.1) (fun _ e h _ _ => h.deleteEdge e)
    (fun _ a b h ha hb => h.addNew (h.nodes a ha) (h.nodes b hb) false) h

end Made

/-- A node that has an ID after `addNode` has a label. -/
theorem GraphEltSet.addNode_label {g g' : GraphEltSet} {node : Node} {id : String}
    (h : g.addNode n node = .ok (id, g')) (hl : node.lbl = none → node.id = none) :
    node.lbl ≠ none ∧ ∀ id' ∈ node.id, id' = id := by
  unfold addNode at h
  split at h
  · rename_i id' hid
    refine ⟨fun hnone => ?_, fun k hk => ?_⟩
    · rw [hl hnone] at hid
      cases hid
    · split at h
      · rw [hid] at hk
        cases h
        exact (Option.some.inj hk).symm
      · cases h
  · rename_i hid
    split at h
    · cases h
    · rename_i lbl hlbl
      refine ⟨by rw [hlbl]; exact Option.some_ne_none lbl, fun k hk => ?_⟩
      rw [hid] at hk
      cases hk

namespace Made

theorem addNode (h : Made s) (hn : n < s.nodesMade) : Made (VisibleLocality.addNode n s).1 := by
  have hs := h.sound.addNode n
  revert hs
  unfold VisibleLocality.addNode
  split
  · exact fun _ => h
  · rename_i hl
    split
    · exact fun _ => h
    · rename_i id g hg
      obtain ⟨hlbl, hid⟩ := GraphEltSet.addNode_label hg (h.label n hn)
      have hc : n ∉ s.completeEltSet.nodes := fun hc => hl (h.sound.subNodes n hc)
      have hsame : ∀ m, m ≠ n → (s.setNode n fun v => { v with id := some id }).node m = s.node m := fun m hm => by
        simp [St.setNode, hm]
      have hnode : (s.setNode n fun v => { v with id := some id }).node n = { s.node n with id := some id } := by
        simp [St.setNode]
      have hreg : Registered { s.setNode n fun v => { v with id := some id } with visibleLocality := g } :=
        h.registered.congr rfl rfl fun m hm => by
          have hmn : m ≠ n := by rintro rfl; exact hc hm
          exact congrArg Node.id (hsame m hmn)
      have hlabel : ∀ m < s.nodesMade, ((s.setNode n fun v => { v with id := some id }).node m).lbl = none →
          ((s.setNode n fun v => { v with id := some id }).node m).id = none := by
        intro m hm hnone
        by_cases hmn : m = n
        · subst hmn
          rw [hnode] at hnone
          exact absurd hnone hlbl
        · rw [hsame m hmn] at hnone ⊢
          exact h.label m hm hnone
      dsimp only
      split
      · rename_i hc'
        exact absurd hc' hc
      · split
        · exact fun hs => ⟨hs, hreg, h.nodes, h.ends, hlabel⟩
        · rename_i id' g' hg'
          obtain ⟨-, hid'⟩ := GraphEltSet.addNode_label hg' (hlabel n hn)
          obtain rfl : id = id' := hid' id (by rw [hnode]; rfl)
          have hfree : s.completeEltSet.findNode id = none := by
            rw [hnode] at hg'
            by_contra hne
            obtain ⟨m, hm⟩ := Option.ne_none_iff_exists'.1 hne
            have hm : (s.setNode n fun v => { v with id := some id }).completeEltSet.findNode id = some m := hm
            simp [GraphEltSet.addNode, hm] at hg'
          obtain rfl := GraphEltSet.addNode_ok hg'
          refine fun hs => ⟨hs, hreg.put hc (by rw [hnode]) hfree rfl rfl, fun m hm => ?_, h.ends, hlabel⟩
          rcases List.mem_append.1 hm with hm | hm
          · exact h.nodes m hm
          · rw [List.mem_singleton.1 hm]; exact hn

theorem deleteNode_nodesMade (s : St) (n : NodeRef) : (VisibleLocality.deleteNode (some n) s).nodesMade = s.nodesMade := by
  rw [← (SameNames.removeNode s n).nodesMade, VisibleLocality.deleteNode, GraphEltSet.deleteNode]
  split
  · exact (SameNames.unlinkFrom n _ 0 _).nodesMade
  · rfl

theorem deleteNode (h : Made s) (n : NodeRef) : Made (VisibleLocality.deleteNode (some n) s) := by
  have hs := (h.sound.deleteNode n).sound
  have hrem := SameNames.removeNode s n
  rw [VisibleLocality.deleteNode] at hs ⊢
  generalize VisibleLocality.removeNode n s = u at hs hrem ⊢
  unfold GraphEltSet.deleteNode at hs ⊢
  by_cases hn : n ∈ u.completeEltSet.nodes
  · rw [if_pos hn] at hs ⊢
    have hun : SameNames { u with completeEltSet := u.completeEltSet.drop n (u.node n) }
        (GraphEltSet.unlinkFrom n (u.node n).edges.length 0
          { u with completeEltSet := u.completeEltSet.drop n (u.node n) }) := .unlinkFrom ..
    have hreg : Registered u := h.registered.congr hrem.nodes hrem.registry fun m _ => (hrem.id m).1
    have hnd : u.completeEltSet.nodes.Nodup := hrem.nodes ▸ h.sound.nodup.2.2
    refine ⟨hs, hreg.drop hnd hn hun.nodes hun.registry fun m => (hun.id m).1, fun m hm => ?_, fun e he => ?_,
      fun m hm => ?_⟩
    · rw [hun.nodes] at hm
      rw [hun.nodesMade]
      refine lt_of_lt_of_eq (h.nodes m ?_) hrem.nodesMade.symm
      rw [← hrem.nodes]
      exact List.mem_of_mem_erase hm
    · rw [hun.edgesMade] at he
      rw [hun.nodesMade, (hun.ends e).1, (hun.ends e).2]
      show (u.edge e).getFrom < u.nodesMade ∧ (u.edge e).getTo < u.nodesMade
      rw [hrem.nodesMade, (hrem.ends e).1, (hrem.ends e).2]
      exact h.ends e (hrem.edgesMade ▸ he)
    · rw [hun.nodesMade] at hm
      rw [(hun.id m).1, (hun.id m).2]
      show (u.node m).lbl = none → (u.node m).id = none
      rw [(hrem.id m).1, (hrem.id m).2]
      exact h.label m (hrem.nodesMade ▸ hm)
  · rw [if_neg hn] at hs ⊢
    exact h.congr hs hrem

theorem updatePartitions_nodesMade (h : Made s) : (TGPanel.updatePartitions s).nodesMade = s.nodesMade :=
  (updatePartitions_rule (I := fun t => Made t ∧ t.nodesMade = s.nodesMade) (fun _ h => h.1.sound.nodup.1)
    (fun t e h _ _ => ⟨h.1.deleteEdge e, (SameNames.deleteEdge t e).nodesMade.trans h.2⟩)
    (fun t a b h ha hb => by
      have hnew := h.1.newEdge (h.1.nodes a ha) (h.1.nodes b hb) false
      exact ⟨h.1.addNew (h.1.nodes a ha) (h.1.nodes b hb) false, (SameNames.addEdge hnew.sound _).nodesMade.trans h.2⟩)
    ⟨h, rfl⟩).2

theorem findNode_lt {id : String} (h : Made s) : ∀ n ∈ s.completeEltSet.findNode id, n < s.nodesMade :=
  fun n hn => h.nodes n ((h.registered.findNode id n).1 hn).1

/-- `updatePartitions` at the end of a call. -/
theorem redraw {k : Nat} (h : Made s) (hk : k ≤ s.nodesMade) :
    Made (TGPanel.updatePartitions s) ∧ k ≤ (TGPanel.updatePartitions s).nodesMade :=
  ⟨h.updatePartitions, by rwa [h.updatePartitions_nodesMade]⟩

theorem redraw_deleteEdge (h : Made s) (e : Option EdgeRef) :
    Made (TGPanel.deleteEdge e s) ∧ s.nodesMade ≤ (TGPanel.deleteEdge e s).nodesMade := by
  cases e with
  | none => exact h.redraw (Nat.le_refl _)
  | some e => exact (h.deleteEdge e).redraw (Nat.le_of_eq (VisibleLocality.deleteEdge_nodesMade e s).symm)

theorem redraw_deleteNode (h : Made s) (n : Option NodeRef) :
    Made (TGPanel.deleteNode n s) ∧ s.nodesMade ≤ (TGPanel.deleteNode n s).nodesMade := by
  cases n with
  | none => exact h.redraw (Nat.le_refl _)
  | some n => exact (h.deleteNode n).redraw (Nat.le_of_eq (deleteNode_nodesMade s n).symm)

theorem redraw_addNode (h : Made s) (hn : n < s.nodesMade) :
    Made (TGPanel.addNode n s).1 ∧ (TGPanel.addNode n s).1.nodesMade = s.nodesMade := by
  have ha := h.addNode hn
  have hm := (VisibleLocality.addNode_joined n s).nodesMade
  unfold TGPanel.addNode
  split
  · rename_i heq
    rw [heq] at ha hm
    exact ⟨ha.updatePartitions, ha.updatePartitions_nodesMade.trans hm⟩
  · rename_i heq
    rw [heq] at ha hm
    exact ⟨ha, hm⟩

theorem redraw_addNew (h : Made s) {f t : NodeRef} (hf : f < s.nodesMade) (ht : t < s.nodesMade) :
    Made (TGPanel.addEdge f t s) ∧ s.nodesMade ≤ (TGPanel.addEdge f t s).nodesMade :=
  (h.addNew hf ht true).redraw (Nat.le_of_eq (SameNames.addEdge (h.newEdge hf ht true).sound _).nodesMade.symm)

theorem clearAll (h : Made s) : Made (TGPanel.clearAll s) := by
  refine ⟨h.sound.clearAll, ⟨fun id n => ⟨by rintro ⟨⟩, by rintro ⟨⟨⟩, -⟩⟩, by rintro n ⟨⟩⟩, by rintro n ⟨⟩, fun e he => ?_,
    h.label⟩
  have hends := h.ends e he
  simp only [TGPanel.clearAll, VisibleLocality.clearAll, VisibleLocality.removeAll]
  split <;> exact hends

theorem init : Made init :=
  ⟨.init, Tidy.init.kept.registered, by rintro n ⟨⟩, fun e he => absurd he (Nat.not_lt_zero e),
    fun n hn => absurd hn (Nat.not_lt_zero n)⟩

theorem setLabel (h : Made s) (n : NodeRef) (label : String) : Made (s.setNode n fun v => { v with lbl := some label }) := by
  have hnode : ∀ m, ((s.setNode n fun v => { v with lbl := some label }).node m).id = (s.node m).id ∧
      ((s.setNode n fun v => { v with lbl := some label }).node m).edges = (s.node m).edges := fun m => by
    by_cases hm : m = n
    · subst hm; simp [St.setNode]
    · simp [St.setNode, hm]
  refine ⟨⟨fun m k hk => ?_, h.sound.made, h.sound.nodup, h.sound.subEdges, h.sound.subNodes⟩,
    h.registered.congr rfl rfl fun m _ => (hnode m).1, h.nodes, h.ends, fun m hm hl => ?_⟩
  · rw [(hnode m).2] at hk
    exact h.sound.ends m k hk
  · rw [(hnode m).1]
    by_cases hmn : m = n
    · subst hmn
      simp [St.setNode] at hl
    · simp only [St.setNode, ne_eq, hmn, not_false_eq_true, Function.update_of_ne] at hl
      exact h.label m hm hl

theorem call (h : Made s) (hs : call s c = some s') : Made s' ∧ s.nodesMade ≤ s'.nodesMade := by
  cases c with
  | newNode id lbl => cases hs; exact ⟨h.newNode id lbl, Nat.le_succ _⟩
  | newEdge f t =>
    obtain ⟨hlt, hs⟩ := Option.ite_none_right_eq_some.1 hs
    cases hs
    exact ⟨h.newEdge hlt.1 hlt.2 true, Nat.le_refl _⟩
  | addNode n =>
    obtain ⟨hn, hs⟩ := Option.ite_none_right_eq_some.1 hs
    cases hs
    obtain ⟨hm, hk⟩ := h.redraw_addNode hn
    exact ⟨hm, Nat.le_of_eq hk.symm⟩
  | addEdge e =>
    obtain ⟨he, hs⟩ := Option.ite_none_right_eq_some.1 hs
    cases hs
    exact (h.addEdge he).redraw (Nat.le_of_eq (SameNames.addEdge h.sound e).nodesMade.symm)
  | addEdgeBetween f t =>
    obtain ⟨hlt, hs⟩ := Option.ite_none_right_eq_some.1 hs
    cases hs
    exact h.redraw_addNew hlt.1 hlt.2
  | deleteEdge e => cases hs; exact h.redraw_deleteEdge e
  | deleteEdgeBetween f t => cases hs; exact h.redraw_deleteEdge _
  | deleteNode n => cases hs; exact h.redraw_deleteNode n
  | hideEdge e =>
    cases hs
    exact ⟨h.congr (h.sound.hideEdge e) (.removeEdge s e), Nat.le_of_eq (SameNames.removeEdge s e).nodesMade.symm⟩
  | clearAll => cases hs; exact ⟨h.clearAll, Nat.le_refl _⟩

end Made

/-! ## Streams -/

namespace InputParser

variable {D : Type} {v v' : Viewer D}

theorem addNew_panel (id : String) (v : Viewer D) : (addNew id v).panel =
    (TGPanel.addNode v.panel.nodesMade (Topo.newNode (some id) (some id) v.panel)).1 := by
  unfold addNew
  split
  · rename_i heq; rw [heq]
  · rename_i heq; rw [heq]

theorem addNew_made (h : Made v.panel) (id : String) :
    Made (addNew id v).panel ∧ (addNew id v).panel.nodesMade = v.panel.nodesMade + 1 := by
  rw [addNew_panel]
  exact (h.newNode (some id) (some id)).redraw_addNode (Nat.lt_succ_self _)

theorem endNode_made (h : Made v.panel) {found : Option NodeRef} (hfound : ∀ n ∈ found, n < v.panel.nodesMade)
    (id : String) : Made (endNode found id v).2.panel ∧ v.panel.nodesMade ≤ (endNode found id v).2.panel.nodesMade ∧
      (endNode found id v).1 < (endNode found id v).2.panel.nodesMade := by
  cases found with
  | none =>
    obtain ⟨hm, hlt⟩ := addNew_made h id
    have hlt : v.panel.nodesMade < (addNew id v).panel.nodesMade := by
      rw [hlt]; exact Nat.lt_succ_self _
    exact ⟨hm, Nat.le_of_lt hlt, hlt⟩
  | some n => exact ⟨h, Nat.le_refl _, hfound n rfl⟩

theorem endNodes_made (h : Made v.panel) (fromID toID : String) :
    Made (endNodes fromID toID v).2.2.panel ∧ v.panel.nodesMade ≤ (endNodes fromID toID v).2.2.panel.nodesMade ∧
      (endNodes fromID toID v).1 < (endNodes fromID toID v).2.2.panel.nodesMade ∧
      (endNodes fromID toID v).2.1 < (endNodes fromID toID v).2.2.panel.nodesMade := by
  have hfound : ∀ id, ∀ n ∈ v.panel.completeEltSet.findNode id, n < v.panel.nodesMade := fun _ => h.findNode_lt
  obtain ⟨hf, hle, hlt⟩ := endNode_made h (hfound fromID) fromID
  obtain ⟨ht, hle', hlt'⟩ := endNode_made hf (fun n hn => Nat.lt_of_lt_of_le (hfound toID n hn) hle) toID
  exact ⟨ht, Nat.le_trans hle hle', Nat.lt_of_lt_of_le hlt hle', hlt'⟩

theorem connectEdge_made (h : Made v.panel) (ntag fromID toID : String) :
    Made (connectEdge ntag fromID toID v).panel ∧
      v.panel.nodesMade ≤ (connectEdge ntag fromID toID v).panel.nodesMade := by
  obtain ⟨hm, hle, hf, ht⟩ := endNodes_made h fromID toID
  unfold connectEdge
  generalize endNodes fromID toID v = r at hm hle hf ht
  obtain ⟨f, t, w⟩ := r
  dsimp only at hm hle hf ht ⊢
  split
  · cases hfe : VisibleLocality.findEdge f t w.panel with
    | none => exact ⟨hm, hle⟩
    | some e =>
      have heq : (addConnect { w with connect := some e }).panel = TGPanel.updatePartitions w.panel := addMade_found hfe
      rw [heq]
      exact hm.redraw hle
  · obtain ⟨hm', hle'⟩ := hm.redraw_addNew hf ht
    exact ⟨hm', Nat.le_trans hle hle'⟩

theorem removeNode_made (h : Made v.panel) (id : String) :
    Made (removeNode id v).panel ∧ v.panel.nodesMade ≤ (removeNode id v).panel.nodesMade := by
  unfold removeNode
  cases v.panel.completeEltSet.findNode id with
  | none => exact ⟨h, Nat.le_refl _⟩
  | some n => exact h.redraw_deleteNode (some n)

theorem removeEdge_made (h : Made v.panel) (fromID toID : String) :
    Made (removeEdge fromID toID v).panel ∧ v.panel.nodesMade ≤ (removeEdge fromID toID v).panel.nodesMade := by
  unfold removeEdge
  split
  · exact h.redraw_deleteEdge _
  · exact ⟨h, Nat.le_refl _⟩

/-- The colours an edge can have. -/
def Drawn (c : Color) : Prop := c = defaultColor ∨ ∃ p, c = qualityColor p

/-- What holds of the viewer whatever was edited. -/
structure Edited (env : Env D) (v : Viewer D) : Prop where
  made : Made v.panel
  color : ∀ e, Drawn (v.color e)
  pix : -2 ^ 31 ≤ v.pixelForOneMeter ∧ v.pixelForOneMeter < 2 ^ 31
  unmade : ∀ n, v.panel.nodesMade ≤ n → v.fixed n = false ∧ v.location n = env.random n

theorem addConnect_frame (v : Viewer D) :
    (addConnect v).color = v.color ∧ (addConnect v).pixelForOneMeter = v.pixelForOneMeter ∧
      (addConnect v).location = v.location ∧ (addConnect v).fixed = v.fixed := by
  unfold addConnect
  split <;> exact ⟨rfl, rfl, rfl, rfl⟩

variable {env : Env D}

/-- No attribute of an edge places or fixes a node. -/
theorem Edited.congr (h : Edited env v) (hm : Made v'.panel ∧ v.panel.nodesMade ≤ v'.panel.nodesMade)
    (hcolor : ∀ e, Drawn (v'.color e)) (hpix : -2 ^ 31 ≤ v'.pixelForOneMeter ∧ v'.pixelForOneMeter < 2 ^ 31)
    (hlocation : v'.location = v.location) (hfixed : v'.fixed = v.fixed) : Edited env v' := by
  refine ⟨hm.1, hcolor, hpix, fun n hn => ?_⟩
  rw [hlocation, hfixed]
  exact h.unmade n (Nat.le_trans hm.2 hn)

theorem connectEdge_edited (h : Edited env v) (ntag fromID toID : String) : Edited env (connectEdge ntag fromID toID v) := by
  have hf := endNodes_frame fromID toID v
  have hm := connectEdge_made h.made ntag fromID toID
  unfold connectEdge at hm ⊢
  dsimp only at hm ⊢
  obtain ⟨hc, hp, hl, hx⟩ := addConnect_frame (if ntag = "modify_edge" then
      { (endNodes fromID toID v).2.2 with
        connect := VisibleLocality.findEdge (endNodes fromID toID v).1 (endNodes fromID toID v).2.1
          (endNodes fromID toID v).2.2.panel }
    else connectNew (endNodes fromID toID v).1 (endNodes fromID toID v).2.1 (endNodes fromID toID v).2.2)
  refine h.congr hm (fun e => ?_) ?_ ?_ ?_
  · rw [hc]
    split
    · dsimp only
      rw [hf.color]
      exact h.color e
    · simp only [connectNew, Function.update_apply, hf.color]
      split
      · exact .inl rfl
      · exact h.color e
  · rw [hp]
    split
    · exact hf.pix ▸ h.pix
    · exact hf.pix ▸ h.pix
  · rw [hl]
    split
    · exact hf.location
    · exact hf.location
  · rw [hx]
    split
    · exact hf.fixed
    · exact hf.fixed

section
variable [DecidableEq D]

omit [DecidableEq D] in
theorem quality_frame (env : Env D) (value : String) (v : Viewer D) :
    (quality env value v).pixelForOneMeter = v.pixelForOneMeter ∧ (quality env value v).location = v.location ∧
      (quality env value v).fixed = v.fixed := by
  unfold quality
  split
  · exact ⟨rfl, rfl, rfl⟩
  · split <;> exact ⟨rfl, rfl, rfl⟩

omit [DecidableEq D] in
theorem quality_edited (h : Edited env v) (value : String) : Edited env (quality env value v) := by
  obtain ⟨hp, hl, hx⟩ := quality_frame env value v
  refine h.congr (by rw [quality_panel]; exact ⟨h.made, Nat.le_refl _⟩) (fun e => ?_) (by rw [hp]; exact h.pix) hl hx
  unfold quality
  split
  · exact h.color e
  · split
    · simp only [Function.update_apply]
      split
      · exact .inr ⟨_, rfl⟩
      · exact h.color e
    · exact h.color e

theorem nodeElement_edited (h : Edited env v) (ntag id : String) (rest : Attributes) :
    Edited env (nodeElement env ntag id rest v) := by
  have hrule : ∀ node, ∀ w : Viewer D, Edited env w → (∀ n ∈ node, n < w.panel.nodesMade) →
      Edited env (nodeAttributes env node rest env.minValue env.minValue w) := by
    intro node w hw hlt
    refine (nodeAttributes_rule env (P := fun w => Edited env w ∧ ∀ n ∈ node, n < w.panel.nodesMade) node
      (fun label w n _ hw => ⟨⟨hw.1.made.setLabel n label, hw.1.color, hw.1.pix, hw.1.unmade⟩, hw.2⟩)
      (fun w n hn hw => ⟨⟨hw.1.made, hw.1.color, hw.1.pix, fun m hm => ?_⟩, hw.2⟩)
      (fun x y w n hn hw => ⟨⟨hw.1.made, hw.1.color, hw.1.pix, fun m hm => ?_⟩, hw.2⟩)
      (fun w _ hw => ⟨⟨hw.1.made, hw.1.color, hw.1.pix, hw.1.unmade⟩, hw.2⟩) rest _ _ w ⟨hw, hlt⟩).1
    · have hne : m ≠ n := Nat.ne_of_gt (Nat.lt_of_lt_of_le (hw.2 n hn) hm)
      simpa [setFixed, hne] using hw.1.unmade m hm
    · have hne : m ≠ n := Nat.ne_of_gt (Nat.lt_of_lt_of_le (hw.2 n hn) hm)
      simpa [setLocation, hne] using hw.1.unmade m hm
  unfold nodeElement
  split
  · have hf := addNew_frame id v
    obtain ⟨hm, hk⟩ := addNew_made h.made id
    refine hrule _ _ (h.congr ⟨hm, by rw [hk]; exact Nat.le_succ _⟩ (fun e => by rw [hf.color]; exact h.color e)
      (by rw [hf.pix]; exact h.pix) hf.location hf.fixed) fun n hn => ?_
    obtain rfl := Option.some.inj hn
    rw [hk]
    exact Nat.lt_succ_self _
  · exact hrule _ v h h.made.findNode_lt

variable (hint : ∀ s i, env.newInteger s = some i → i < 2 ^ 31)
include hint

omit [DecidableEq D] in
theorem attributeBranch_edited (h : Edited env v) (ntag : String) (prev : Option String) (name value : String) :
    Edited env (attributeBranch env ntag prev name value v) := by
  refine attributeBranch_rule env ?_ ?_ ?_ ?_ ?_ ?_
  · exact fun _ _ => h.congr (removeNode_made h.made value) h.color h.pix rfl rfl
  · exact fun fromID _ _ _ => connectEdge_edited h ntag fromID value
  · intro fromID _ _ _
    have hm := removeEdge_made h.made fromID value
    unfold removeEdge at hm ⊢
    split at hm
    · exact h.congr hm h.color h.pix rfl rfl
    · exact h
  · exact fun _ => quality_edited h value
  · intro _
    refine h.congr ⟨h.made, Nat.le_refl _⟩ h.color ?_ rfl rfl
    show -2 ^ 31 ≤ max ((env.newInteger value).getD 1) 1 ∧ max ((env.newInteger value).getD 1) 1 < 2 ^ 31
    refine ⟨le_trans (by decide) (le_max_right _ 1), ?_⟩
    cases hi : env.newInteger value with
    | none => decide
    | some i => exact max_lt (hint value i hi) (by decide)
  · exact fun _ _ _ => h

theorem attributes_edited (ntag : String) : ∀ (prev : Option String) (attrs : Attributes) (v : Viewer D), Edited env v →
    Edited env (attributes env ntag prev attrs v)
  | _, [], _, h => h
  | prev, (name, value) :: rest, v, h => by
    have hb := attributeBranch_edited hint h ntag prev name value
    unfold attributes
    split
    · exact nodeElement_edited h ntag value rest
    · dsimp only
      split
      · exact hb
      · exact attributes_edited ntag (some value) rest _ hb

theorem handle_edited (h : Edited env v) (ev : Event) : Edited env (handle env ev v) := by
  cases ev with
  | startElement qName attrs =>
    simp only [handle, startElement]
    split
    · exact h.congr ⟨h.made.clearAll, Nat.le_refl _⟩ h.color h.pix rfl rfl
    · exact attributes_edited hint _ none attrs v h
  | endElement qName =>
    simp only [handle, endElement]
    split
    · exact ⟨h.made, h.color, h.pix, h.unmade⟩
    · exact h

end

end InputParser

/-! ## Runs -/

/-- `newParser` reads another file or connection. -/
inductive Edit (D : Type) where
  | event (ev : InputParser.Event)
  | newParser
  | call (c : Call)
  | setLocation (n : NodeRef) (x y : D)
  | setFixed (n : NodeRef) (fixed : Bool)
  | setPixelForOneMeter (pixOneMeter : Int)

namespace Viewer

variable {D : Type} [DecidableEq D] (env : Env D) {v : Viewer D}

/-- The constructors of `InputParser` (`InputParser.java:18`, :28). -/
def newParser (v : Viewer D) : Viewer D := InputParser.startDocument { v with connect := none, thrown := none }

/-- Behind a `null` in the locality nothing is called any more. -/
def edit (v : Viewer D) : Edit D → Option (Viewer D)
  | .event ev => InputParser.step env v ev
  | .newParser => if v.nullEdge then none else some (newParser v)
  | .call c => if v.nullEdge then none else (Topo.call v.panel c).map fun s => { v with panel := s }
  | .setLocation n x y =>
    if n < v.panel.nodesMade then some { v with location := Function.update v.location n (x, y) } else none
  | .setFixed n fixed =>
    if n < v.panel.nodesMade then some { v with fixed := Function.update v.fixed n fixed } else none
  | .setPixelForOneMeter pixOneMeter =>
    if -2 ^ 31 ≤ pixOneMeter ∧ pixOneMeter < 2 ^ 31 then some { v with pixelForOneMeter := pixOneMeter } else none

omit [DecidableEq D] in
theorem edited_empty : InputParser.Edited env (InputParser.empty env) := by
  refine ⟨.init, fun _ => .inl rfl, ?_, fun _ _ => ⟨rfl, rfl⟩⟩
  show -2 ^ 31 ≤ (20 : Int) ∧ (20 : Int) < 2 ^ 31
  decide

/-- Whatever is edited, `Edited` holds. -/
theorem reach_edited (hint : ∀ s i, env.newInteger s = some i → i < 2 ^ 31)
    (h : Lts.Reach (edit env) Lts.Any (InputParser.empty env) v) : InputParser.Edited env v := by
  refine h.invariant (edited_empty env) fun v ed v' hv _ hs => ?_
  cases ed with
  | event ev =>
    simp only [edit, InputParser.step] at hs
    split at hs
    · cases hs
    · obtain rfl := Option.some.inj hs
      exact InputParser.handle_edited hint hv ev
  | newParser =>
    obtain ⟨-, hs⟩ := Option.ite_none_left_eq_some.1 hs
    cases hs
    exact ⟨hv.made, hv.color, hv.pix, hv.unmade⟩
  | call c =>
    obtain ⟨-, hs⟩ := Option.ite_none_left_eq_some.1 hs
    obtain ⟨s, hc, rfl⟩ := Option.map_eq_some_iff.1 hs
    exact hv.congr (hv.made.call hc) hv.color hv.pix rfl rfl
  | setLocation n x y =>
    obtain ⟨hlt, hs⟩ := Option.ite_none_right_eq_some.1 hs
    cases hs
    refine ⟨hv.made, hv.color, hv.pix, fun m hm => ?_⟩
    have hne : m ≠ n := Nat.ne_of_gt (Nat.lt_of_lt_of_le hlt hm)
    simpa [hne] using hv.unmade m hm
  | setFixed n fixed =>
    obtain ⟨hlt, hs⟩ := Option.ite_none_right_eq_some.1 hs
    cases hs
    refine ⟨hv.made, hv.color, hv.pix, fun m hm => ?_⟩
    have hne : m ≠ n := Nat.ne_of_gt (Nat.lt_of_lt_of_le hlt hm)
    simpa [hne] using hv.unmade m hm
  | setPixelForOneMeter pixOneMeter =>
    obtain ⟨hlt, hs⟩ := Option.ite_none_right_eq_some.1 hs
    cases hs
    exact ⟨hv.made, hv.color, hlt, hv.unmade⟩

end Viewer

end Topo
