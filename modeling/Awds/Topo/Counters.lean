import Awds.Topo.Integrity

/-!
# The counters of the status bar

`nodeDrift` and `edgeDrift` are what the counters are ahead of the graph. `Counts` says which attributes leave
them alone; the others only drift one way, so that no later attribute of the element makes up for them.
-/

namespace Topo

namespace InputParser

variable {D : Type} {v v' w : Viewer D} {ntag : String} {out : NodeRef → Prop}

def nodeDrift (v : Viewer D) : Int := v.nodeCnt - v.panel.completeEltSet.nodes.length

def edgeDrift (v : Viewer D) : Int := v.edgeCnt - v.panel.shown.length

/-- The counters of the status bar are the sizes of the graph, partition edges left out. -/
def Agree (v : Viewer D) : Prop :=
  v.nodeCnt = v.panel.completeEltSet.nodes.length ∧ v.edgeCnt = v.panel.shown.length

theorem agree_iff : Agree v ↔ nodeDrift v = 0 ∧ edgeDrift v = 0 := by
  unfold Agree nodeDrift edgeDrift
  omega

structure Level (v v' : Viewer D) : Prop where
  nodes : nodeDrift v' = nodeDrift v
  edges : edgeDrift v' = edgeDrift v

/-- The counters only fall behind, but for `edgeCnt` at a `remove_node`, which only gets ahead. -/
structure Drifts (ntag : String) (v v' : Viewer D) : Prop where
  nodes : nodeDrift v' ≤ nodeDrift v
  edges : if ntag = "remove_node" then edgeDrift v ≤ edgeDrift v' else edgeDrift v' ≤ edgeDrift v

theorem Level.drifts (h : Level v v') : Drifts ntag v v' := by
  refine ⟨Int.le_of_eq h.nodes, ?_⟩
  split
  · exact Int.le_of_eq h.edges.symm
  · exact Int.le_of_eq h.edges

theorem Drifts.trans (h : Drifts ntag v w) (h' : Drifts ntag w v') : Drifts ntag v v' := by
  refine ⟨Int.le_trans h'.nodes h.nodes, ?_⟩
  have he := h.edges
  have he' := h'.edges
  split at he
  · rw [if_pos ‹_›] at he' ⊢
    exact Int.le_trans he he'
  · rw [if_neg ‹_›] at he' ⊢
    exact Int.le_trans he' he

/-- Nothing makes up for a drift. -/
theorem Drifts.level_iff (h : Drifts ntag v w) (h' : Drifts ntag w v') : Level v v' ↔ Level v w ∧ Level w v' := by
  have hn := h.nodes
  have hn' := h'.nodes
  have he := h.edges
  have he' := h'.edges
  constructor
  · rintro ⟨h1, h2⟩
    split at he
    · rw [if_pos ‹_›] at he'
      exact ⟨⟨by omega, by omega⟩, ⟨by omega, by omega⟩⟩
    · rw [if_neg ‹_›] at he'
      exact ⟨⟨by omega, by omega⟩, ⟨by omega, by omega⟩⟩
  · rintro ⟨h1, h2⟩
    exact ⟨h2.nodes.trans h1.nodes, h2.edges.trans h1.edges⟩

theorem Agree.level_iff (h : Agree v) : Agree v' ↔ Level v v' := by
  obtain ⟨hn, he⟩ := agree_iff.1 h
  rw [agree_iff]
  exact ⟨fun h' => ⟨h'.1.trans hn.symm, h'.2.trans he.symm⟩, fun h' => ⟨h'.nodes.trans hn, h'.edges.trans he⟩⟩

/-! ## What is removed -/

/-- A node that is removed exists and has no edge to be seen; an edge that is removed, both ends given, exists and
is one to be seen. -/
def Counts (ntag : String) (prev : Option String) (name value : String) (v : Viewer D) : Prop :=
  (toLowerCase name = "id" → ntag = "remove_node" →
    ∃ n ∈ v.panel.completeEltSet.findNode value, ∀ e ∈ v.panel.shown, ¬v.panel.touches n e) ∧
  (toLowerCase name = "to" → ntag = "remove_edge" → ∀ fromID ∈ prev,
    ∀ f ∈ v.panel.completeEltSet.findNode fromID, ∀ t ∈ v.panel.completeEltSet.findNode value,
    ∃ e ∈ VisibleLocality.findEdge f t v.panel, v.panel.isVisible e = true)

instance (ntag : String) (prev : Option String) (name value : String) (v : Viewer D) :
    Decidable (Counts ntag prev name value v) := inferInstanceAs (Decidable (_ ∧ _))

theorem removeNode_drifts (h : Kept out v.panel) (id : String) : Drifts "remove_node" v (removeNode id v) ∧
    (Level v (removeNode id v) ↔
      ∃ n ∈ v.panel.completeEltSet.findNode id, ∀ e ∈ v.panel.shown, ¬v.panel.touches n e) := by
  unfold removeNode
  cases hf : v.panel.completeEltSet.findNode id with
  | none =>
    have hnodes : nodeDrift { v with nodeCnt := v.nodeCnt - 1 } = nodeDrift v - 1 := by
      simp only [nodeDrift]
      omega
    refine ⟨⟨by dsimp only; omega, Int.le_refl _⟩, iff_of_false (fun hl => ?_) ?_⟩
    · have := hl.nodes
      dsimp only at this
      omega
    · rintro ⟨n, hn, -⟩
      cases hn
  | some n =>
    have hn := ((h.registered.findNode id n).1 hf).1
    have hd := h.deleteNode hn
    have hr := hd.kept.redraw
    have hlen : (TGPanel.deleteNode (some n) v.panel).completeEltSet.nodes.length =
        v.panel.completeEltSet.nodes.length - 1 := by
      rw [TGPanel.deleteNode, hr.nodes, hd.nodes]
      exact List.length_erase_of_mem hn
    have hpos := List.length_pos_of_mem hn
    have hshown : (TGPanel.deleteNode (some n) v.panel).shown =
        v.panel.shown.filter fun k => !decide (v.panel.touches n k) := by
      rw [TGPanel.deleteNode, hr.shown, hd.shown]
    have hle := List.length_filter_le (fun k => !decide (v.panel.touches n k)) v.panel.shown
    have hall : (v.panel.shown.filter fun k => !decide (v.panel.touches n k)).length = v.panel.shown.length ↔
        ∀ e ∈ v.panel.shown, ¬v.panel.touches n e := by
      rw [List.length_filter_eq_length_iff]
      simp
    dsimp only
    refine ⟨⟨?_, ?_⟩, ?_⟩
    · simp only [nodeDrift, hlen]
      omega
    · simp only [edgeDrift, hshown, if_true]
      omega
    · have hiff : Level v { v with panel := TGPanel.deleteNode (some n) v.panel, nodeCnt := v.nodeCnt - 1 } ↔
          (v.panel.shown.filter fun k => !decide (v.panel.touches n k)).length = v.panel.shown.length := by
        constructor
        · intro hl
          have := hl.edges
          simp only [edgeDrift, hshown] at this
          omega
        · intro hl
          refine ⟨?_, ?_⟩
          · simp only [nodeDrift, hlen]
            omega
          · simp only [edgeDrift, hshown, hl]
      rw [hiff, hall]
      refine ⟨fun hno => ⟨n, rfl, hno⟩, ?_⟩
      rintro ⟨m, hm, hno⟩
      obtain rfl := Option.some.inj hm
      exact hno

theorem removeEdge_drifts (h : Kept out v.panel) (fromID toID : String) :
    Drifts "remove_edge" v (removeEdge fromID toID v) ∧ (Level v (removeEdge fromID toID v) ↔
      ∀ f ∈ v.panel.completeEltSet.findNode fromID, ∀ t ∈ v.panel.completeEltSet.findNode toID,
      ∃ e ∈ VisibleLocality.findEdge f t v.panel, v.panel.isVisible e = true) := by
  unfold removeEdge
  split
  · rename_i f t hf ht
    simp only [hf, ht, Option.mem_def, Option.some.injEq, forall_eq']
    have hnodes : (TGPanel.deleteEdgeBetween f t v.panel).completeEltSet.nodes = v.panel.completeEltSet.nodes := by
      unfold TGPanel.deleteEdgeBetween
      cases VisibleLocality.findEdge f t v.panel with
      | none => exact h.redraw.nodes
      | some e =>
        rw [(h.deleteEdge e).redraw.nodes, (VisibleLocality.deleteEdge_edges v.panel e).1]
    -- one is counted, an edge to be seen goes or none
    have hshown : ((TGPanel.deleteEdgeBetween f t v.panel).shown.length : Int) = v.panel.shown.length -
        if ∃ e, VisibleLocality.findEdge f t v.panel = some e ∧ v.panel.isVisible e = true then 1 else 0 := by
      unfold TGPanel.deleteEdgeBetween
      cases hfe : VisibleLocality.findEdge f t v.panel with
      | none =>
        dsimp only [VisibleLocality.deleteEdge]
        rw [h.redraw.shown, if_neg (by rintro ⟨e, he, -⟩; cases he), Int.sub_zero]
      | some e =>
        have hmem : e ∈ v.panel.completeEltSet.edges := by
          rw [← h.same]
          simpa using (Option.filter_eq_some_iff.1 hfe).2
        rw [(h.deleteEdge e).redraw.shown, h.shown_deleteEdge]
        by_cases hv : v.panel.isVisible e = true
        · have hshown : e ∈ v.panel.shown := St.mem_shown.2 ⟨hmem, hv⟩
          have hpos := List.length_pos_of_mem hshown
          rw [if_pos ⟨e, rfl, hv⟩, List.length_erase_of_mem hshown]
          omega
        · rw [List.erase_of_not_mem fun he => hv (St.mem_shown.1 he).2, if_neg, Int.sub_zero]
          rintro ⟨k, hk, hvk⟩
          obtain rfl := Option.some.inj hk
          exact hv hvk
    refine ⟨⟨?_, ?_⟩, fun hl => ?_, fun hex => ⟨?_, ?_⟩⟩
    · simp only [nodeDrift, hnodes, Int.le_refl]
    · rw [if_neg (by decide)]
      simp only [edgeDrift, hshown]
      split <;> omega
    · have := hl.edges
      simp only [edgeDrift, hshown] at this
      by_contra hno
      rw [if_neg hno] at this
      omega
    · simp only [nodeDrift, hnodes]
    · simp only [edgeDrift, hshown, if_pos hex]
      omega
  · rename_i hno
    exact ⟨Level.drifts ⟨rfl, rfl⟩, iff_of_true ⟨rfl, rfl⟩ fun f hf t ht => (hno f t hf ht).elim⟩

/-! ## One attribute -/

/-- Edges may end at a node that was rejected. -/
def Loose (v : Viewer D) : Prop := Kept (fun n => n < v.panel.nodesMade) v.panel

theorem Level.connected (h : Connected out v v') : Level v v' := ⟨h.nodeCnt, h.edgeCnt⟩

theorem connectEdge_level (h : Loose v) (fromID toID : String) (ht : (connectEdge ntag fromID toID v).thrown = none) :
    Level v (connectEdge ntag fromID toID v) ∧ Loose (connectEdge ntag fromID toID v) := by
  have hn := endNodes_spec h (fun _ hlt => hlt) fromID toID
  have hsub : ∀ n, n < v.panel.nodesMade → n < (endNodes fromID toID v).2.2.panel.nodesMade :=
    fun n hlt => Nat.lt_of_lt_of_le hlt hn.made.1
  obtain ⟨hc, hmade, -⟩ := connectEdge_spec h (fun _ hlt => hlt) hsub (.inr hn.made.2.2) ht
  refine ⟨.connected hc, ?_⟩
  rw [Loose, hmade]
  exact hc.kept

theorem Loose.congr (h : Loose v) (hpanel : v'.panel = v.panel) : Loose v' := by
  unfold Loose
  rw [hpanel]
  exact h

theorem Loose.removeNode (h : Loose v) (id : String) : Loose (removeNode id v) := by
  have hmade : (InputParser.removeNode id v).panel.nodesMade = v.panel.nodesMade := by
    unfold InputParser.removeNode
    cases hf : v.panel.completeEltSet.findNode id with
    | none => rfl
    | some n =>
      have hd := h.deleteNode ((h.registered.findNode id n).1 hf).1
      exact hd.kept.redraw.nodesMade.trans hd.nodesMade
  unfold Loose
  rw [hmade]
  exact removeNode_kept h id

theorem Loose.removeEdge (h : Loose v) (fromID toID : String) : Loose (removeEdge fromID toID v) := by
  have hmade : (InputParser.removeEdge fromID toID v).panel.nodesMade = v.panel.nodesMade := by
    unfold InputParser.removeEdge
    split
    · rename_i f t _ _
      dsimp only [TGPanel.deleteEdgeBetween]
      cases VisibleLocality.findEdge f t v.panel with
      | none => exact h.redraw.nodesMade
      | some e => exact (h.deleteEdge e).redraw.nodesMade.trans (VisibleLocality.deleteEdge_nodesMade e v.panel)
    · rfl
  unfold Loose
  rw [hmade]
  exact removeEdge_kept h fromID toID

section
variable [DecidableEq D] (env : Env D)

omit [DecidableEq D] in
theorem attributeBranch_drifts (h : Loose v) (ntag : String) (prev : Option String) (name value : String)
    (ht : (attributeBranch env ntag prev name value v).thrown = none) :
    Drifts ntag v (attributeBranch env ntag prev name value v) ∧
      (Level v (attributeBranch env ntag prev name value v) ↔ Counts ntag prev name value v) ∧
      Loose (attributeBranch env ntag prev name value v) := by
  -- what neither removes nor adds
  have hsame : ∀ v', v'.panel = v.panel → v'.nodeCnt = v.nodeCnt → v'.edgeCnt = v.edgeCnt →
      Counts ntag prev name value v →
      Drifts ntag v v' ∧ (Level v v' ↔ Counts ntag prev name value v) ∧ Loose v' := by
    intro v' hp hn he hc
    have hl : Level v v' := ⟨by rw [nodeDrift, hp, hn]; rfl, by rw [edgeDrift, hp, he]; rfl⟩
    exact ⟨hl.drifts, iff_of_true hl hc, h.congr hp⟩
  refine attributeBranch_rule env (P := fun w => w.thrown = none →
    Drifts ntag v w ∧ (Level v w ↔ Counts ntag prev name value v) ∧ Loose w) ?_ ?_ ?_ ?_ ?_ ?_ ht
  · rintro hid rfl -
    have hto : toLowerCase name ≠ "to" := by rw [hid]; decide
    obtain ⟨hd, hl⟩ := removeNode_drifts h value
    refine ⟨hd, hl.trans ⟨fun hex => ⟨fun _ _ => hex, fun hto' => absurd hto' hto⟩, fun hc => hc.1 hid rfl⟩,
      h.removeNode value⟩
  · intro fromID hto _ hedge ht
    have hid : toLowerCase name ≠ "id" := by rw [hto]; decide
    have hr : ntag ≠ "remove_edge" := by rintro rfl; exact absurd hedge (by decide)
    obtain ⟨hl, hk⟩ := connectEdge_level h fromID value ht
    exact ⟨hl.drifts, iff_of_true hl ⟨fun hid' => absurd hid' hid, fun _ hr' => absurd hr' hr⟩, hk⟩
  · rintro fromID hto rfl rfl -
    have hid : toLowerCase name ≠ "id" := by rw [hto]; decide
    obtain ⟨hd, hl⟩ := removeEdge_drifts h fromID value
    refine ⟨hd, hl.trans ⟨fun hex => ⟨fun hid' => absurd hid' hid, fun _ _ id hp => ?_⟩, fun hc => hc.2 hto rfl fromID rfl⟩,
      h.removeEdge fromID value⟩
    obtain rfl := Option.some.inj hp
    exact hex
  · intro hval _
    have hc : Counts ntag prev name value v := by
      refine ⟨fun hid => ?_, fun hto => ?_⟩
      · rw [hval] at hid
        exact absurd hid (by decide)
      · rw [hval] at hto
        exact absurd hto (by decide)
    refine hsame _ (quality_panel env value v) ?_ ?_ hc
    · unfold quality
      split
      · rfl
      · split <;> rfl
    · unfold quality
      split
      · rfl
      · split <;> rfl
  · intro hpix _
    refine hsame _ rfl rfl rfl ⟨fun hid => ?_, fun hto => ?_⟩
    · rw [hpix] at hid
      exact absurd hid (by decide)
    · rw [hpix] at hto
      exact absurd hto (by decide)
  · intro hid hto _ _
    refine hsame v rfl rfl rfl ⟨fun hid' hr => absurd hr (hid hid'), fun hto' hr fromID hprev => ?_⟩
    exact absurd hr (hto fromID hto' hprev).2

theorem nodeElement_level (h : Loose v) (ntag id : String) (rest : Attributes) :
    Level v (nodeElement env ntag id rest v) ∧ Loose (nodeElement env ntag id rest v) := by
  have hrule := fun node => nodeAttributes_rule env (P := fun w => Level v w ∧ Loose w) node
    (fun label _ n _ hw => ⟨⟨hw.1.nodes, hw.1.edges⟩, setLabel_kept hw.2 label n⟩)
    (fun _ _ _ hw => ⟨⟨hw.1.nodes, hw.1.edges⟩, hw.2⟩) (fun _ _ _ _ _ hw => ⟨⟨hw.1.nodes, hw.1.edges⟩, hw.2⟩)
    (fun _ _ hw => ⟨⟨hw.1.nodes, hw.1.edges⟩, hw.2⟩)
  unfold nodeElement
  split
  · have hn := addNew_spec h (fun _ hlt => hlt) id
    refine hrule _ rest _ _ _ ⟨⟨hn.nodeCnt, ?_⟩, ?_⟩
    · rw [edgeDrift, hn.shown, hn.edgeCnt]
      rfl
    · unfold Loose
      rw [hn.made]
      exact hn.kept.mono fun n hlt => Nat.lt_succ_of_lt hlt
  · exact hrule _ rest _ _ _ ⟨⟨rfl, rfl⟩, h⟩

/-! ## Elements -/

theorem attributes_drifts (ntag : String) : ∀ (prev : Option String) (attrs : Attributes) (v : Viewer D), Loose v →
    (attributes env ntag prev attrs v).thrown = none →
    Drifts ntag v (attributes env ntag prev attrs v) ∧
      (Level v (attributes env ntag prev attrs v) ↔ Every env (Counts ntag) ntag prev attrs v) ∧
      Loose (attributes env ntag prev attrs v)
  | _, [], _, h, _ => ⟨Level.drifts ⟨rfl, rfl⟩, iff_of_true ⟨rfl, rfl⟩ trivial, h⟩
  | prev, (name, value) :: rest, v, h, ht => by
    unfold attributes at ht ⊢
    unfold Every
    split
    · obtain ⟨hl, hk⟩ := nodeElement_level env h ntag value rest
      exact ⟨hl.drifts, iff_of_true hl trivial, hk⟩
    · rename_i hid
      rw [if_neg hid] at ht
      dsimp only at ht ⊢
      cases hb : (attributeBranch env ntag prev name value v).thrown with
      | some x => simp [hb] at ht
      | none =>
        simp only [hb, Option.isSome_none, Bool.false_eq_true, if_false] at ht ⊢
        obtain ⟨hd, hl, hk⟩ := attributeBranch_drifts env h ntag prev name value hb
        obtain ⟨hd', hl', hk'⟩ := attributes_drifts ntag (some value) rest _ hk ht
        exact ⟨hd.trans hd', (hd.level_iff hd').trans (and_congr hl hl'), hk'⟩

/-- `topology` comes to an empty graph, and every attribute counts what it removes. -/
def Accounted (v : Viewer D) : Event → Prop
  | .startElement qName attrs =>
    if toLowerCase qName = "topology" then v.panel.completeEltSet.nodes = [] ∧ v.panel.shown = []
    else Every env (Counts (toLowerCase qName)) (toLowerCase qName) none attrs v
  | .endElement _ => True

instance (v : Viewer D) : (ev : Event) → Decidable (Accounted env v ev)
  | .startElement qName attrs =>
    have := decEvery env (P := Counts (toLowerCase qName)) (fun _ _ _ _ => inferInstance) (toLowerCase qName) none attrs v
    inferInstanceAs (Decidable (if toLowerCase qName = "topology" then _ ∧ _ else _))
  | .endElement _ => isTrue trivial

/-- An event leaves the counters level exactly where it is accounted for. -/
theorem handle_level (h : Loose v) {ev : Event} (ht : (handle env ev v).thrown = none) :
    (Level v (handle env ev v) ↔ Accounted env v ev) ∧ Loose (handle env ev v) := by
  cases ev with
  | startElement qName attrs =>
    simp only [handle, startElement, Accounted] at ht ⊢
    split
    · refine ⟨?_, h.clearAll⟩
      have hnodes : nodeDrift { v with panel := TGPanel.clearAll v.panel } = v.nodeCnt := Int.sub_zero _
      have hedges : edgeDrift { v with panel := TGPanel.clearAll v.panel } = v.edgeCnt := Int.sub_zero _
      rw [← List.length_eq_zero_iff, ← List.length_eq_zero_iff]
      constructor
      · intro hl
        have h1 := hl.nodes
        have h2 := hl.edges
        rw [hnodes, nodeDrift] at h1
        rw [hedges, edgeDrift] at h2
        omega
      · rintro ⟨h1, h2⟩
        refine ⟨?_, ?_⟩
        · rw [hnodes, nodeDrift, h1]; simp
        · rw [hedges, edgeDrift, h2]; simp
    · rename_i htag
      rw [if_neg htag] at ht
      exact (attributes_drifts env (toLowerCase qName) none attrs v h ht).2
  | endElement qName =>
    simp only [handle, endElement, Accounted]
    split <;> exact ⟨iff_of_true ⟨rfl, rfl⟩ trivial, h⟩

/-! ## Runs -/

/-- **In a stream whose elements are accounted for, the counters are the numbers of nodes and of visible edges
after every element that throws nothing; and there an element that is not accounted for sets them wrong.** -/
theorem counters_agree (h : Lts.Reach (step env) (Accounted env) (init env) v) (ht : v.thrown = none) :
    Agree v ∧ ∀ ev, (handle env ev v).thrown = none → (Agree (handle env ev v) ↔ Accounted env v ev) := by
  have hv : Loose v ∧ Agree v := by
    refine h.invariant (I := fun v => v.thrown = none → Loose v ∧ Agree v)
      (fun _ => ⟨(kept_init env).mono fun _ hf => hf.elim, rfl, rfl⟩) (fun v ev v' hv ho hs hn => ?_) ht
    unfold step at hs
    split at hs
    · cases hs
    · rename_i hno
      have hno : v.thrown = none := by simpa using hno
      obtain rfl := Option.some.inj hs
      obtain ⟨hk, ha⟩ := hv hno
      obtain ⟨hl, hk'⟩ := handle_level env hk hn
      exact ⟨hk', ha.level_iff.2 (hl.2 ho)⟩
  refine ⟨hv.2, fun ev hn => ?_⟩
  exact hv.2.level_iff.trans (handle_level env hv.1 hn).1

end

/-- A node that was never there. -/
def strayStream : List Event := [.startElement "remove_node" [("id", "3")]]

theorem strayStream_possible : (Lts.execOk (step decimal) Lts.Any (init decimal) strayStream).isSome = true := by
  decide +kernel

/-- It is counted as removed: `nodeCnt` is -1. -/
theorem stray_removal_counted : ¬∀ v, Lts.Reach (step decimal) Lts.Any (init decimal) v → v.thrown = none → Agree v := by
  intro hall
  have hv := hall _ (Lts.reach_get strayStream strayStream_possible) (by decide +kernel)
  exact absurd hv.1 (by decide +kernel)

/-- A new topology, an edge with two new nodes, a loop with a rejected one, a parallel edge that goes again, and a
node without edges that goes. -/
def countedStream : List Event :=
  [.startElement "topology" [], .startElement "edge" [("from", "1"), ("to", "2")],
    .startElement "edge" [("from", "5"), ("to", "5")], .startElement "add_edge" [("from", "2"), ("to", "1")],
    .startElement "remove_edge" [("from", "2"), ("to", "1")], .startElement "node" [("id", "3"), ("x", "7")],
    .startElement "node" [("id", "3")], .startElement "remove_node" [("id", "3")]]

theorem countedStream_possible :
    (Lts.execOk (step decimal) (Accounted decimal) (init decimal) countedStream).isSome = true := by
  decide +kernel

def countedViewer : Viewer Int :=
  (Lts.execOk (step decimal) (Accounted decimal) (init decimal) countedStream).get countedStream_possible

theorem counters_agree_counted : Agree countedViewer ∧
    ¬Agree (handle decimal (.startElement "remove_node" [("id", "1")]) countedViewer) := by
  have hall := counters_agree decimal (v := countedViewer) (Lts.reach_get countedStream countedStream_possible)
    (by decide +kernel)
  exact ⟨hall.1, fun ha => absurd ((hall.2 _ (by decide +kernel)).1 ha) (by decide +kernel)⟩

end InputParser

end Topo
