import Awds.Topo.Counters
import Awds.Topo.Edits

/-!
# Which edge `remove_edge` takes

`GraphEltSet.findEdge` looks at where the edges of the first node lead, and not at where they start.
`Layered`: the invisible edges come last, so that the one it finds is a visible one where there is one.
-/

namespace Topo

open TGPanel

variable {s s' : St} {n m f t : NodeRef} {e k : EdgeRef} {out : NodeRef → Prop}

/-! ## The invisible edges come last -/

/-- No visible edge of the graph stands behind an invisible one. -/
def Layered (s : St) : Prop := s.completeEltSet.edges.Pairwise fun a b => s.isVisible b = true → s.isVisible a = true

theorem Layered.congr (h : Layered s) (hedges : s'.completeEltSet.edges = s.completeEltSet.edges)
    (hvis : ∀ e ∈ s.completeEltSet.edges, s'.isVisible e = s.isVisible e) : Layered s' := by
  unfold Layered
  rw [hedges]
  refine List.Pairwise.imp_of_mem (fun ha hb hab => ?_) h
  rw [hvis _ ha, hvis _ hb]
  exact hab

/-- A new invisible edge comes behind all others. -/
theorem Layered.addInvisible (h : Layered s) (hs : Sound s) (a b : NodeRef) :
    Layered (VisibleLocality.addEdge s.edgesMade (newEdge a b false s)) := by
  have hnew : s.edgesMade ∉ s.completeEltSet.edges := fun he => Nat.lt_irrefl _ (hs.made _ he)
  have ha := VisibleLocality.addEdge_added (s := newEdge a b false s) (e := s.edgesMade) hnew
    fun he => hnew (hs.subEdges _ he)
  have hvis : ∀ e, (VisibleLocality.addEdge s.edgesMade (newEdge a b false s)).isVisible e =
      if e = s.edgesMade then false else s.isVisible e := by
    intro e
    have hedge : (newEdge a b false s).edge e = if e = s.edgesMade then ⟨a, b, false⟩ else s.edge e :=
      Function.update_apply ..
    rw [St.isVisible, ha.edge, hedge]
    split
    · rfl
    · rfl
  have hold : ∀ e ∈ s.completeEltSet.edges, e ≠ s.edgesMade := fun e he => Nat.ne_of_lt (hs.made e he)
  unfold Layered
  rw [ha.complete]
  refine List.pairwise_append.2 ⟨?_, List.pairwise_singleton _ _, fun x hx y hy hv => ?_⟩
  · refine List.Pairwise.imp_of_mem (fun hx hy hxy => ?_) h
    rw [hvis, hvis, if_neg (hold _ hx), if_neg (hold _ hy)]
    exact hxy
  · rw [hvis, if_pos (List.mem_singleton.1 hy)] at hv
    cases hv

/-- `updatePartitions` puts its edges behind the others. -/
theorem Sound.layered (h : Sound s) : Layered (TGPanel.updatePartitions s) := by
  obtain ⟨hs, hall⟩ := removeInvisible_rule (I := Sound) (fun _ h => h.nodup.1) (fun _ e h _ _ => h.deleteEdge e)
    s.completeEltSet.edges.length s h fun e he _ => by rwa [List.take_of_length_le (Nat.le_refl _)]
  have hfirst : Layered (removeInvisible s.completeEltSet.edges.length s) :=
    List.Pairwise.imp_of_mem (fun ha _ _ _ => hall _ ha) (List.pairwise_of_forall fun _ _ => trivial)
  exact (buildInvisible_rule (I := fun s => Sound s ∧ Layered s)
    (fun _ a b h _ _ => ⟨h.1.addInvisible a b, h.2.addInvisible h.1 a b⟩) _ _ ⟨hs, hfirst⟩ (partitions_subset _)).2

/-! ## What `findEdge` finds -/

/-- `e` is at `f`, and leads to `t`. -/
def St.leads (s : St) (f t : NodeRef) (e : EdgeRef) : Bool := decide (s.touches f e) && (s.edge e).getTo = t

theorem St.leads_iff : s.leads f t e = true ↔ s.touches f e ∧ (s.edge e).getTo = t := by
  rw [leads, Bool.and_eq_true, decide_eq_true_eq, decide_eq_true_eq]

theorem find?_copies (s : St) (f t : NodeRef) (es : List EdgeRef) :
    (es.flatMap (s.copies f)).find? (fun e => (s.edge e).getTo = t) = es.find? (s.leads f t) := by
  induction es with
  | nil => rfl
  | cons e es ih =>
    rw [List.flatMap_cons, List.find?_append, ih, List.find?_cons]
    by_cases ht : s.touches f e
    · obtain ⟨l, hl⟩ : ∃ l, s.copies f e = e :: l ∧ ∀ x ∈ l, x = e := by
        rcases hc : s.copies f e with _ | ⟨x, l⟩
        · exact absurd ht (s.copies_eq_nil.1 hc)
        · have hall := s.eq_of_mem_copies f e
          rw [hc] at hall
          obtain rfl := hall x List.mem_cons_self
          exact ⟨l, rfl, fun y hy => hall y (List.mem_cons_of_mem _ hy)⟩
      obtain ⟨hl, hall⟩ := hl
      rw [hl, List.find?_cons]
      by_cases hto : (s.edge e).getTo = t
      · have hlead : s.leads f t e = true := St.leads_iff.2 ⟨ht, hto⟩
        simp [hto, hlead]
      · have hlead : s.leads f t e = false := Bool.eq_false_iff.2 fun h => hto (St.leads_iff.1 h).2
        have hnone : l.find? (fun e => decide ((s.edge e).getTo = t)) = none := by
          rw [List.find?_eq_none]
          intro x hx
          rw [hall x hx, decide_eq_true_eq]
          exact hto
        simp [hto, hlead, hnone]
    · have hlead : s.leads f t e = false := Bool.eq_false_iff.2 fun h => ht (St.leads_iff.1 h).1
      rw [s.copies_eq_nil.2 ht, hlead]
      rfl

theorem Kept.findEdge_eq (h : Kept out s) (hf : f ∈ s.completeEltSet.nodes) (t : NodeRef) :
    VisibleLocality.findEdge f t s = s.completeEltSet.edges.find? (s.leads f t) := by
  rw [VisibleLocality.findEdge, GraphEltSet.findEdge, h.shape.vector f hf, find?_copies, h.same]
  cases hfind : s.completeEltSet.edges.find? (s.leads f t) with
  | none => rfl
  | some e =>
    rw [Option.filter_some, if_pos]
    exact decide_eq_true (List.mem_of_find?_eq_some hfind)

/-- Where a visible edge is to be found, the first one is. -/
theorem Layered.find?_shown (h : Layered s) (q : EdgeRef → Bool) :
    s.shown.find? q = (s.completeEltSet.edges.find? q).filter s.isVisible := by
  unfold Layered at h
  rw [St.shown]
  generalize s.completeEltSet.edges = es at h
  induction es with
  | nil => rfl
  | cons e es ih =>
    obtain ⟨hfirst, hrest⟩ := List.pairwise_cons.1 h
    cases hv : s.isVisible e with
    | true =>
      rw [List.filter_cons_of_pos hv, List.find?_cons, List.find?_cons, ih hrest]
      cases q e with
      | true => rw [Option.filter_some, if_pos hv]
      | false => rfl
    | false =>
      -- nothing behind is visible
      have hnone : es.filter s.isVisible = [] := by
        rw [List.filter_eq_nil_iff]
        intro x hx hx'
        rw [hfirst x hx hx'] at hv
        cases hv
      rw [List.filter_cons_of_neg (Bool.eq_false_iff.1 hv), hnone, List.find?_cons]
      rw [hnone] at ih
      cases q e with
      | true => rw [Option.filter_some, if_neg (Bool.eq_false_iff.1 hv)]; rfl
      | false => exact ih hrest

/-- `deleteEdge(f, t)` takes the oldest visible edge that is at `f` and leads to `t`. -/
theorem Kept.deleteEdgeBetween_shown (h : Kept out s) (hl : Layered s) (hf : f ∈ s.completeEltSet.nodes) (t : NodeRef) :
    (deleteEdgeBetween f t s).shown = (s.shown.find? (s.leads f t)).elim s.shown s.shown.erase ∧
      ∀ e ∈ (deleteEdgeBetween f t s).shown, (deleteEdgeBetween f t s).edge e = s.edge e := by
  rw [hl.find?_shown, deleteEdgeBetween, h.findEdge_eq hf]
  cases hfind : s.completeEltSet.edges.find? (s.leads f t) with
  | none => exact ⟨h.redraw.shown, fun e he => h.redraw.edge e (h.redraw.shown ▸ he)⟩
  | some e =>
    have hr := (h.deleteEdge e).redraw
    refine ⟨?_, fun k hk => ?_⟩
    · rw [hr.shown, h.shown_deleteEdge, Option.filter_some]
      split
      · rfl
      · rename_i hv
        exact List.erase_of_not_mem fun he => hv (St.mem_shown.1 he).2
    · rw [hr.shown] at hk
      rw [hr.edge k hk]
      refine VisibleLocality.deleteEdge_edge ?_ s
      rintro rfl
      rw [h.shown_deleteEdge] at hk
      exact (h.shape.nodupEdges.filter _).not_mem_erase hk

/-! ## The named edge -/

/-- `e` runs from `f` to `t`. -/
def St.runs (s : St) (f t : NodeRef) (e : EdgeRef) : Prop := (s.edge e).getFrom = f ∧ (s.edge e).getTo = t

/-- A visible edge from `f` to `t` goes, if there is one; all others stay. -/
structure RemovesNamed (f t : NodeRef) (s s' : St) : Prop where
  removed : (∀ e ∈ s.shown, ¬s.runs f t e) ∧ s'.shown = s.shown ∨
    ∃ e ∈ s.shown, s.runs f t e ∧ s'.shown = s.shown.erase e
  stays : ∀ e ∈ s'.shown, s'.edge e = s.edge e

/-- The nodes are two, or the oldest visible edge that leads to the node is a loop. -/
def FirstIsLoop (f t : NodeRef) (s : St) : Prop :=
  f = t → ∀ e ∈ s.shown.find? fun e => (s.edge e).getTo = t, (s.edge e).getFrom = t

instance (f t : NodeRef) (s : St) : Decidable (FirstIsLoop f t s) := inferInstanceAs (Decidable (_ → _))

theorem leads_self (s : St) (t : NodeRef) : s.leads t t = fun e => decide ((s.edge e).getTo = t) := by
  funext e
  rw [Bool.eq_iff_iff, St.leads_iff, decide_eq_true_eq]
  exact ⟨fun h => h.2, fun h => ⟨.inr h, h⟩⟩

/-- An edge at `f` that leads to another node starts at `f`. -/
theorem runs_of_leads (h : s.leads f t e = true) (hloop : f = t → (s.edge e).getFrom = t) : s.runs f t e := by
  obtain ⟨ht, hto⟩ := St.leads_iff.1 h
  refine ⟨?_, hto⟩
  by_cases hft : f = t
  · rw [hloop hft, hft]
  · exact ht.resolve_right fun hf => hft (hf.symm.trans hto)

theorem leads_of_runs (h : s.runs f t e) : s.leads f t e = true := St.leads_iff.2 ⟨.inl h.1, h.2⟩

theorem Kept.removesNamed_iff (h : Kept out s) (hl : Layered s) (hf : f ∈ s.completeEltSet.nodes) (t : NodeRef) :
    RemovesNamed f t s (deleteEdgeBetween f t s) ↔ FirstIsLoop f t s := by
  obtain ⟨hshown, hstays⟩ := h.deleteEdgeBetween_shown hl hf t
  have hnd : s.shown.Nodup := h.shape.nodupEdges.filter _
  cases hfind : s.shown.find? (s.leads f t) with
  | none =>
    rw [hfind] at hshown
    have hno : ∀ e ∈ s.shown, ¬s.runs f t e := fun e he hr => List.find?_eq_none.1 hfind e he (leads_of_runs hr)
    refine iff_of_true ⟨.inl ⟨hno, hshown⟩, hstays⟩ fun hft e he => ?_
    subst hft
    rw [leads_self] at hfind
    rw [hfind] at he
    cases he
  | some e =>
    rw [hfind] at hshown
    have he : e ∈ s.shown := List.mem_of_find?_eq_some hfind
    have hleads : s.leads f t e = true := List.find?_some hfind
    constructor
    · intro hr hft k hk
      subst hft
      rw [← leads_self, hfind] at hk
      obtain rfl := Option.some.inj hk
      rcases hr.removed with ⟨-, hsame⟩ | ⟨k, hk, hruns, hsame⟩
      · rw [hshown] at hsame
        exact absurd (hsame ▸ he) hnd.not_mem_erase
      · by_cases hke : e = k
        · rw [hke]
          exact hruns.1
        · -- another edge than the one that is named is gone
          rw [hshown] at hsame
          have hmem : e ∈ s.shown.erase k := (hnd.mem_erase_iff).2 ⟨hke, he⟩
          rw [← hsame] at hmem
          exact absurd hmem hnd.not_mem_erase
    · intro hloop
      refine ⟨.inr ⟨e, he, runs_of_leads hleads fun hft => ?_, hshown⟩, hstays⟩
      subst hft
      refine hloop rfl e ?_
      rw [← leads_self, hfind]
      rfl

/-! ## Any graph that can be built -/

/-- What edits keep. Edges may end at a node that was rejected. -/
structure Settled (s : St) : Prop where
  made : Made s
  kept : Kept (fun n => n < s.nodesMade) s
  layered : Layered s

namespace Settled

theorem redraw (hm : Made s) (hk : Kept (fun n => n < s.nodesMade) s) : Settled (updatePartitions s) := by
  refine ⟨hm.updatePartitions, ?_, hm.sound.layered⟩
  rw [hm.updatePartitions_nodesMade]
  exact hk.redraw.kept

theorem newNode (h : Settled s) (id lbl : Option String) : Settled (newNode id lbl s) :=
  ⟨h.made.newNode id lbl, (h.kept.newNode id lbl).mono fun _ hn => Nat.lt_succ_of_lt hn,
    h.layered.congr rfl fun _ _ => rfl⟩

theorem newEdge (h : Settled s) (hf : f < s.nodesMade) (ht : t < s.nodesMade) : Settled (newEdge f t true s) := by
  refine ⟨h.made.newEdge hf ht true, h.kept.newEdge f t true, h.layered.congr rfl fun e he => ?_⟩
  have hne : e ≠ s.edgesMade := Nat.ne_of_lt (h.made.sound.made e he)
  simp [St.isVisible, Topo.newEdge, hne]

theorem addNode (h : Settled s) (hf : Fresh s n) (hid : ∃ id, (s.node n).id = some id)
    (hno : ∀ e ∈ s.completeEltSet.edges, ¬s.touches n e) : Settled (TGPanel.addNode n s).1 := by
  have hm := h.made.addNode hf.1
  have hk := h.kept.addNode hf hid hno
  have hj := VisibleLocality.addNode_joined n s
  unfold TGPanel.addNode
  split
  · rename_i heq
    rw [heq] at hm hk hj
    rw [← hj.nodesMade] at hk
    exact redraw hm hk
  · rename_i heq
    rw [heq] at hm hk hj
    refine ⟨hm, ?_, h.layered.congr hj.completeEdges fun e _ => ?_⟩
    · rw [← hj.nodesMade] at hk
      exact hk
    · rw [St.isVisible, hj.edge]
      rfl

theorem addMade (h : Settled s) (he : e < s.edgesMade) : Settled (addMade e s) := by
  have hmade : (VisibleLocality.addEdge e s).nodesMade = s.nodesMade := (SameNames.addEdge h.made.sound e).nodesMade
  refine redraw (h.made.addEdge he) ?_
  rw [hmade]
  exact h.kept.addEdge he fun m hm => ⟨h.made.touches_lt he hm, .inr (h.made.touches_lt he hm)⟩

theorem addEdge (h : Settled s) (hf : f < s.nodesMade) (ht : t < s.nodesMade) : Settled (TGPanel.addEdge f t s) :=
  (h.newEdge hf ht).addMade (Nat.lt_succ_self _)

theorem deleteEdge (h : Settled s) (e : Option EdgeRef) : Settled (TGPanel.deleteEdge e s) := by
  cases e with
  | none => exact redraw h.made h.kept
  | some e =>
    refine redraw (h.made.deleteEdge e) ?_
    rw [VisibleLocality.deleteEdge_nodesMade]
    exact h.kept.deleteEdge e

theorem deleteNode (h : Settled s) (n : Option NodeRef) : Settled (TGPanel.deleteNode n s) := by
  cases n with
  | none => exact redraw h.made h.kept
  | some n =>
    refine redraw (h.made.deleteNode n) ?_
    rw [Made.deleteNode_nodesMade]
    by_cases hn : n ∈ s.completeEltSet.nodes
    · exact (h.kept.deleteNode hn).kept
    · rw [h.kept.deleteNode_absent hn]
      exact h.kept

theorem clearAll (h : Settled s) : Settled (TGPanel.clearAll s) := ⟨h.made.clearAll, h.kept.clearAll, .nil⟩

theorem init : Settled init :=
  ⟨.init, Tidy.init.kept.mono fun _ hn => hn.elim, .nil⟩

end Settled

/-- What an editor calls: a node that it adds is fresh, has an ID and no edge leads to it, and it hides nothing. -/
def EditorCall (s : St) : Call → Prop
  | .addNode n => Fresh s n ∧ (s.node n).id ≠ none ∧ ∀ e ∈ s.completeEltSet.edges, ¬s.touches n e
  | .hideEdge _ => False
  | _ => True

instance (s : St) : (c : Call) → Decidable (EditorCall s c)
  | .addNode n =>
    inferInstanceAs (Decidable (Fresh s n ∧ (s.node n).id ≠ none ∧ ∀ e ∈ s.completeEltSet.edges, ¬s.touches n e))
  | .hideEdge _ => inferInstanceAs (Decidable False)
  | .newNode _ _ | .newEdge _ _ | .addEdge _ | .addEdgeBetween _ _ | .deleteEdge _ | .deleteEdgeBetween _ _
  | .deleteNode _ | .clearAll => isTrue trivial

theorem Settled.call {c : Call} (h : Settled s) (hc : EditorCall s c) (hs : Topo.call s c = some s') : Settled s' := by
  cases c with
  | newNode id lbl => cases hs; exact h.newNode id lbl
  | newEdge f t =>
    obtain ⟨hlt, hs⟩ := Option.ite_none_right_eq_some.1 hs
    cases hs
    exact h.newEdge hlt.1 hlt.2
  | addNode n =>
    obtain ⟨-, hs⟩ := Option.ite_none_right_eq_some.1 hs
    cases hs
    exact h.addNode hc.1 (Option.ne_none_iff_exists'.1 hc.2.1) hc.2.2
  | addEdge e =>
    obtain ⟨he, hs⟩ := Option.ite_none_right_eq_some.1 hs
    cases hs
    exact h.addMade he
  | addEdgeBetween f t =>
    obtain ⟨hlt, hs⟩ := Option.ite_none_right_eq_some.1 hs
    cases hs
    exact h.addEdge hlt.1 hlt.2
  | deleteEdge e => cases hs; exact h.deleteEdge e
  | deleteEdgeBetween f t => cases hs; exact h.deleteEdge _
  | deleteNode n => cases hs; exact h.deleteNode n
  | hideEdge e => exact hc.elim
  | clearAll => cases hs; exact h.clearAll

namespace InputParser

variable {D : Type} {v : Viewer D}

theorem addNew_settled (h : Settled v.panel) (id : String) : Settled (addNew id v).panel := by
  have hnode : (newNode (some id) (some id) v.panel).node v.panel.nodesMade =
      ⟨some id, some id, partIDOf v.panel.globPartCnt, []⟩ := by simp [newNode]
  rw [addNew_panel]
  refine (h.newNode (some id) (some id)).addNode ⟨Nat.lt_succ_self _, fun hn => ?_, by rw [hnode]⟩ ⟨id, by rw [hnode]⟩
    fun e he ht => ?_
  · exact Nat.lt_irrefl _ (h.made.nodes _ hn)
  · exact Nat.lt_irrefl _ (h.made.touches_lt (h.made.sound.made e he) ht)

theorem endNodes_settled (h : Settled v.panel) (fromID toID : String) : Settled (endNodes fromID toID v).2.2.panel := by
  have hend : ∀ (found : Option NodeRef) (id : String) (v : Viewer D), Settled v.panel →
      Settled (endNode found id v).2.panel := by
    intro found id v h
    cases found with
    | none => exact addNew_settled h id
    | some n => exact h
  exact hend _ _ _ (hend _ _ _ h)

theorem connectEdge_settled (h : Settled v.panel) (ntag fromID toID : String) :
    Settled (connectEdge ntag fromID toID v).panel := by
  have hs := endNodes_settled h fromID toID
  obtain ⟨-, -, hf, ht⟩ := endNodes_made h.made fromID toID
  unfold connectEdge
  generalize endNodes fromID toID v = r at hs hf ht
  obtain ⟨f, t, w⟩ := r
  dsimp only at hs hf ht ⊢
  split
  · cases hfe : VisibleLocality.findEdge f t w.panel with
    | none => exact hs
    | some e =>
      have heq : (addConnect { w with connect := some e }).panel = TGPanel.updatePartitions w.panel := addMade_found hfe
      rw [heq]
      exact .redraw hs.made hs.kept
  · exact hs.addEdge hf ht

theorem removeNode_settled (h : Settled v.panel) (id : String) : Settled (removeNode id v).panel := by
  unfold removeNode
  cases v.panel.completeEltSet.findNode id with
  | none => exact h
  | some n => exact h.deleteNode (some n)

theorem removeEdge_settled (h : Settled v.panel) (fromID toID : String) : Settled (removeEdge fromID toID v).panel := by
  unfold removeEdge
  split
  · exact h.deleteEdge _
  · exact h

section
variable [DecidableEq D] (env : Env D)

theorem nodeElement_settled (h : Settled v.panel) (ntag id : String) (rest : Attributes) :
    Settled (nodeElement env ntag id rest v).panel := by
  have hrule := fun node => nodeAttributes_rule env (P := fun w : Viewer D => Settled w.panel) node
    (fun label w n _ hw =>
      ⟨hw.made.setLabel n label, setLabel_kept hw.kept label n, hw.layered.congr rfl fun _ _ => rfl⟩)
    (fun _ _ _ hw => hw) (fun _ _ _ _ _ hw => hw) (fun _ _ hw => hw)
  unfold nodeElement
  split
  · exact hrule _ rest _ _ _ (addNew_settled h id)
  · exact hrule _ rest _ _ _ h

omit [DecidableEq D] in
theorem attributeBranch_settled (h : Settled v.panel) (ntag : String) (prev : Option String) (name value : String) :
    Settled (attributeBranch env ntag prev name value v).panel := by
  refine attributeBranch_rule env (P := fun w => Settled w.panel) ?_ ?_ ?_ ?_ ?_ ?_
  · exact fun _ _ => removeNode_settled h value
  · exact fun fromID _ _ _ => connectEdge_settled h ntag fromID value
  · exact fun fromID _ _ _ => removeEdge_settled h fromID value
  · intro _
    rw [quality_panel]
    exact h
  · exact fun _ => h
  · exact fun _ _ _ => h

theorem attributes_settled (ntag : String) : ∀ (prev : Option String) (attrs : Attributes) (v : Viewer D),
    Settled v.panel → Settled (attributes env ntag prev attrs v).panel
  | _, [], _, h => h
  | prev, (name, value) :: rest, v, h => by
    have hb := attributeBranch_settled env h ntag prev name value
    unfold attributes
    split
    · exact nodeElement_settled env h ntag value rest
    · dsimp only
      split
      · exact hb
      · exact attributes_settled ntag (some value) rest _ hb

theorem handle_settled (h : Settled v.panel) (ev : Event) : Settled (handle env ev v).panel := by
  cases ev with
  | startElement qName attrs =>
    simp only [handle, startElement]
    split
    · exact h.clearAll
    · exact attributes_settled env _ none attrs v h
  | endElement qName =>
    simp only [handle, endElement]
    split
    · exact h
    · exact h

end

end InputParser

namespace Viewer

variable {D : Type} [DecidableEq D] (env : Env D) {v : Viewer D}

/-- Any stream, and what an editor does. -/
def Editing (v : Viewer D) : Edit D → Prop
  | .call c => EditorCall v.panel c
  | _ => True

omit [DecidableEq D] in
instance (v : Viewer D) : (ed : Edit D) → Decidable (Editing v ed)
  | .call c => inferInstanceAs (Decidable (EditorCall v.panel c))
  | .event _ | .newParser | .setLocation _ _ _ | .setFixed _ _ | .setPixelForOneMeter _ => isTrue trivial

theorem reach_settled (h : Lts.Reach (edit env) Editing (InputParser.empty env) v) : Settled v.panel := by
  refine h.invariant (I := fun v => Settled v.panel) .init fun v ed v' hv ho hs => ?_
  cases ed with
  | event ev =>
    simp only [edit, InputParser.step] at hs
    split at hs
    · cases hs
    · obtain rfl := Option.some.inj hs
      exact InputParser.handle_settled env hv ev
  | newParser =>
    obtain ⟨-, hs⟩ := Option.ite_none_left_eq_some.1 hs
    cases hs
    exact hv
  | call c =>
    obtain ⟨-, hs⟩ := Option.ite_none_left_eq_some.1 hs
    obtain ⟨s, hc, rfl⟩ := Option.map_eq_some_iff.1 hs
    exact hv.call ho hc
  | setLocation n x y =>
    obtain ⟨-, hs⟩ := Option.ite_none_right_eq_some.1 hs
    cases hs
    exact hv
  | setFixed n fixed =>
    obtain ⟨-, hs⟩ := Option.ite_none_right_eq_some.1 hs
    cases hs
    exact hv
  | setPixelForOneMeter pixOneMeter =>
    obtain ⟨-, hs⟩ := Option.ite_none_right_eq_some.1 hs
    cases hs
    exact hv

end Viewer

/-! ## `remove_edge` -/

namespace InputParser

variable {D : Type} [DecidableEq D] (env : Env D) {v : Viewer D}

theorem startElement_removeEdge {qName : String} (hq : toLowerCase qName = "remove_edge") {fromID toID : String}
    (hf : v.panel.completeEltSet.findNode fromID = some f) (ht : v.panel.completeEltSet.findNode toID = some t)
    (hthrown : v.thrown = none) :
    (startElement env qName [("from", fromID), ("to", toID)] v).panel = TGPanel.deleteEdgeBetween f t v.panel := by
  have hfrom : toLowerCase "from" = "from" := by decide
  have hto : toLowerCase "to" = "to" := by decide
  simp [startElement, hq, attributes, attributeBranch, hfrom, hto, isEdge, removeEdge, hf, ht, hthrown]

/-- **On any graph that can be built, a `remove_edge` between two nodes of it takes a visible edge from the one to
the other, if there is one, and no other visible edge, exactly if the two nodes differ or the oldest visible edge
that leads to the node is a loop.** -/
theorem remove_edge_named (h : Lts.Reach (Viewer.edit env) Viewer.Editing (empty env) v) (hthrown : v.thrown = none)
    {qName : String} (hq : toLowerCase qName = "remove_edge") {fromID toID : String}
    (hf : v.panel.completeEltSet.findNode fromID = some f) (ht : v.panel.completeEltSet.findNode toID = some t) :
    RemovesNamed f t v.panel (startElement env qName [("from", fromID), ("to", toID)] v).panel ↔
      FirstIsLoop f t v.panel := by
  have hs := Viewer.reach_settled env h
  rw [startElement_removeEdge env hq hf ht hthrown]
  exact hs.kept.removesNamed_iff hs.layered ((hs.kept.registered.findNode fromID f).1 hf).1 t

/-- Nodes 1 and 2, and an edge from 2 to 1. -/
def towardsStream : List (Edit Int) :=
  [.event (.startElement "node" [("id", "1")]), .event (.startElement "node" [("id", "2")]),
    .event (.startElement "edge" [("from", "2"), ("to", "1")])]

theorem towardsStream_possible :
    (Lts.execOk (Viewer.edit decimal) Viewer.Editing (empty decimal) towardsStream).isSome = true := by
  decide +kernel

def towardsViewer : Viewer Int :=
  (Lts.execOk (Viewer.edit decimal) Viewer.Editing (empty decimal) towardsStream).get towardsStream_possible

theorem remove_edge_named_towards : RemovesNamed 1 0 towardsViewer.panel
    (startElement decimal "remove_edge" [("from", "2"), ("to", "1")] towardsViewer).panel :=
  (remove_edge_named decimal (v := towardsViewer) (Lts.reach_get towardsStream towardsStream_possible) (by decide +kernel)
    (by decide +kernel) (by decide +kernel) (by decide +kernel)).2 (by decide +kernel)

/-- No edge runs from 1 to 1, and the one from 2 to 1 is gone. -/
theorem loop_takes_incoming : ¬∀ (v : Viewer Int) (fromID toID : String) (f t : NodeRef),
    Lts.Reach (Viewer.edit decimal) Viewer.Editing (empty decimal) v → v.thrown = none →
    v.panel.completeEltSet.findNode fromID = some f → v.panel.completeEltSet.findNode toID = some t →
    RemovesNamed f t v.panel (startElement decimal "remove_edge" [("from", fromID), ("to", toID)] v).panel := by
  intro hall
  have hr := hall towardsViewer "1" "1" 0 0 (Lts.reach_get towardsStream towardsStream_possible) (by decide +kernel)
    (by decide +kernel) (by decide +kernel)
  have hshown : towardsViewer.panel.shown = [1] ∧
      (startElement decimal "remove_edge" [("from", "1"), ("to", "1")] towardsViewer).panel.shown = [] := by
    decide +kernel
  rcases hr.removed with ⟨-, hsame⟩ | ⟨e, he, hruns, -⟩
  · rw [hshown.1, hshown.2] at hsame
    cases hsame
  · rw [hshown.1, List.mem_singleton] at he
    subst he
    exact absurd hruns.1 (by decide +kernel)

end InputParser

end Topo
