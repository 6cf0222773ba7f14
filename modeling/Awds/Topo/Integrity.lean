import Awds.Topo.Represent
import Awds.Topo.Stream

/-!
# Streams keep the graph whole

What each handler does to the panel. `Intact`: an edge ends at nodes of the graph, and the registry finds
them.
-/

namespace Topo

namespace InputParser

variable {D : Type} {v v' : Viewer D} {ntag : String} {out out' : NodeRef → Prop}

/-! ## New nodes -/

/-- `addNew` has brought a node with the ID `id`, or left it out. -/
structure NewNode (out : NodeRef → Prop) (id : String) (v v' : Viewer D) : Prop where
  kept : Kept out v'.panel
  made : v'.panel.nodesMade = v.panel.nodesMade + 1
  shown : v'.panel.shown = v.panel.shown
  edgeCnt : v'.edgeCnt = v.edgeCnt
  nodeCnt : v'.nodeCnt - v'.panel.completeEltSet.nodes.length = v.nodeCnt - v.panel.completeEltSet.nodes.length
  found : v.panel.completeEltSet.findNode id = none →
    v'.panel.completeEltSet.findNode id = some v.panel.nodesMade
  rejected : v.panel.completeEltSet.findNode id ≠ none → v'.panel.completeEltSet.nodes = v.panel.completeEltSet.nodes
  added : v.panel.completeEltSet.findNode id = none →
    v'.panel.completeEltSet.nodes = v.panel.completeEltSet.nodes ++ [v.panel.nodesMade]
  other : ∀ k, k ≠ id → v'.panel.completeEltSet.findNode k = v.panel.completeEltSet.findNode k
  old : ∀ k n, v.panel.completeEltSet.findNode k = some n → v'.panel.completeEltSet.findNode k = some n
  name : (v'.panel.node v.panel.nodesMade).id = some id
  names : ∀ n, n ≠ v.panel.nodesMade →
    (v'.panel.node n).id = (v.panel.node n).id ∧ (v'.panel.node n).lbl = (v.panel.node n).lbl
  edge : ∀ e ∈ v.panel.shown, v'.panel.edge e = v.panel.edge e

theorem addNew_spec (h : Kept out v.panel) (hout : ∀ n, out n → n < v.panel.nodesMade) (id : String) :
    NewNode out id v (addNew id v) := by
  have hk := h.newNode (some id) (some id)
  have hnode : (newNode (some id) (some id) v.panel).node v.panel.nodesMade =
      ⟨some id, some id, partIDOf v.panel.globPartCnt, []⟩ := by simp [newNode]
  have hnot : v.panel.nodesMade ∉ v.panel.completeEltSet.nodes := fun hn => Nat.lt_irrefl _ (h.shape.nodes _ hn).1
  have hf : Fresh (newNode (some id) (some id) v.panel) v.panel.nodesMade :=
    ⟨Nat.lt_succ_self _, hnot, by rw [hnode]⟩
  have hno : ∀ e ∈ v.panel.completeEltSet.edges, ¬(newNode (some id) (some id) v.panel).touches v.panel.nodesMade e := by
    intro e he ht
    rcases (h.shape.edges e he).2 _ ht with hn | hn
    · exact hnot hn
    · exact Nat.lt_irrefl _ (hout _ hn)
  have hnames : ∀ n, n ≠ v.panel.nodesMade → (newNode (some id) (some id) v.panel).node n = v.panel.node n := fun n hn => by
    simp [newNode, hn]
  have hadd := hk.addNode hf ⟨id, by rw [hnode]⟩ hno
  have heq := hk.addNode_eq hnot (by rw [hnode])
  unfold addNew TGPanel.addNode
  rw [heq] at hadd ⊢
  have hfind : (newNode (some id) (some id) v.panel).completeEltSet = v.panel.completeEltSet := rfl
  cases hfree : v.panel.completeEltSet.findNode id with
  | none =>
    rw [hfind, hfree] at hadd ⊢
    have hr := Kept.redraw hadd
    simp only [Option.isNone_none, if_true] at hr ⊢
    have hput : ∀ k, (TGPanel.updatePartitions { newNode (some id) (some id) v.panel with
        completeEltSet := v.panel.completeEltSet.put id v.panel.nodesMade
        visibleLocality := v.panel.completeEltSet.put id v.panel.nodesMade }).completeEltSet.findNode k =
          if k = id then some v.panel.nodesMade else v.panel.completeEltSet.findNode k := fun k => by
      rw [← GraphEltSet.findNode_put, GraphEltSet.findNode, hr.registry]
      rfl
    refine ⟨hr.kept, hr.nodesMade, hr.shown, rfl, ?_, fun _ => by rw [hput, if_pos rfl], fun hne => absurd hfree hne,
      fun _ => hr.nodes, fun k hk => by rw [hput, if_neg hk], fun k n hkn => ?_, (hr.id _).1.trans (congrArg Node.id hnode),
      fun n hn => ⟨(hr.id n).1.trans (congrArg Node.id (hnames n hn)), (hr.id n).2.trans (congrArg Node.lbl (hnames n hn))⟩,
      hr.edge⟩
    · rw [hr.nodes]
      simp only [GraphEltSet.put, List.length_append, List.length_singleton, Nat.cast_add, Nat.cast_one]
      omega
    · rw [hput, if_neg]
      · exact hkn
      · rintro rfl
        rw [hfree] at hkn
        cases hkn
  | some m =>
    rw [hfind, hfree] at hadd ⊢
    have hne : v.panel.completeEltSet.findNode id ≠ none := by rw [hfree]; exact Option.some_ne_none m
    exact ⟨hk, rfl, rfl, rfl, rfl, fun hno => absurd hno hne, fun _ => rfl, fun hno => absurd hno hne, fun _ _ => rfl,
      fun _ _ hkn => hkn, congrArg Node.id hnode,
      fun n hn => ⟨congrArg Node.id (hnames n hn), congrArg Node.lbl (hnames n hn)⟩, fun _ _ => rfl⟩

/-- The node that is found for an ID, or added. -/
structure EndNode (out : NodeRef → Prop) (found : Option NodeRef) (id : String) (v : Viewer D) (r : NodeRef × Viewer D) :
    Prop where
  kept : Kept out r.2.panel
  made : v.panel.nodesMade ≤ r.2.panel.nodesMade ∧ r.1 < r.2.panel.nodesMade
  shown : r.2.panel.shown = v.panel.shown
  edgeCnt : r.2.edgeCnt = v.edgeCnt
  nodeCnt : r.2.nodeCnt - r.2.panel.completeEltSet.nodes.length = v.nodeCnt - v.panel.completeEltSet.nodes.length
  nodes : ∃ new, r.2.panel.completeEltSet.nodes = v.panel.completeEltSet.nodes ++ new ∧ (found ≠ none → new = []) ∧
    (found = none → v.panel.completeEltSet.findNode id = none → new ≠ [])
  other : ∀ k, k ≠ id → r.2.panel.completeEltSet.findNode k = v.panel.completeEltSet.findNode k
  old : ∀ k n, v.panel.completeEltSet.findNode k = some n → r.2.panel.completeEltSet.findNode k = some n
  name : (r.2.panel.node r.1).id = some id
  names : ∀ n < v.panel.nodesMade,
    (r.2.panel.node n).id = (v.panel.node n).id ∧ (r.2.panel.node n).lbl = (v.panel.node n).lbl
  edge : ∀ e ∈ v.panel.shown, r.2.panel.edge e = v.panel.edge e

theorem endNode_spec (h : Kept out v.panel) (hout : ∀ n, out n → n < v.panel.nodesMade) {found : Option NodeRef}
    {id : String} (hfound : ∀ n ∈ found, n < v.panel.nodesMade ∧ (v.panel.node n).id = some id) :
    EndNode out found id v (endNode found id v) := by
  cases found with
  | none =>
    have hn := addNew_spec h hout id
    have hlt : v.panel.nodesMade < (addNew id v).panel.nodesMade := by
      rw [hn.made]; exact Nat.lt_succ_self _
    refine ⟨hn.kept, ⟨Nat.le_of_lt hlt, hlt⟩, hn.shown, hn.edgeCnt, hn.nodeCnt, ?_, hn.other, hn.old, hn.name,
      fun n hlt => hn.names n (Nat.ne_of_lt hlt), hn.edge⟩
    by_cases hfree : v.panel.completeEltSet.findNode id = none
    · exact ⟨[v.panel.nodesMade], hn.added hfree, fun hne => absurd rfl hne, fun _ _ => List.cons_ne_nil _ _⟩
    · exact ⟨[], (hn.rejected hfree).trans (List.append_nil _).symm, fun _ => rfl, fun _ hno => absurd hno hfree⟩
  | some n =>
    exact ⟨h, ⟨Nat.le_refl _, (hfound n rfl).1⟩, rfl, rfl, rfl, ⟨[], (List.append_nil _).symm, fun _ => rfl,
      fun hno => (nomatch hno)⟩, fun _ _ => rfl, fun _ _ hk => hk, (hfound n rfl).2, fun _ _ => ⟨rfl, rfl⟩, fun _ _ => rfl⟩

/-- Both ends of an edge. -/
structure EndNodes (out : NodeRef → Prop) (fromID toID : String) (v : Viewer D) (r : NodeRef × NodeRef × Viewer D) :
    Prop where
  kept : Kept out r.2.2.panel
  made : v.panel.nodesMade ≤ r.2.2.panel.nodesMade ∧ r.1 < r.2.2.panel.nodesMade ∧ r.2.1 < r.2.2.panel.nodesMade
  shown : r.2.2.panel.shown = v.panel.shown
  edgeCnt : r.2.2.edgeCnt = v.edgeCnt
  nodeCnt : r.2.2.nodeCnt - r.2.2.panel.completeEltSet.nodes.length =
    v.nodeCnt - v.panel.completeEltSet.nodes.length
  old : ∀ k n, v.panel.completeEltSet.findNode k = some n → r.2.2.panel.completeEltSet.findNode k = some n
  fromNode : r.2.2.panel.completeEltSet.findNode fromID = some r.1
  toNode : (fromID = toID → v.panel.completeEltSet.findNode toID ≠ none) →
    r.2.2.panel.completeEltSet.findNode toID = some r.2.1
  absent : fromID = toID → v.panel.completeEltSet.findNode toID = none → r.2.1 ∉ r.2.2.panel.completeEltSet.nodes
  nodes : ∃ new, r.2.2.panel.completeEltSet.nodes = v.panel.completeEltSet.nodes ++ new ∧
    (new = [] ↔ v.panel.completeEltSet.findNode fromID ≠ none ∧ v.panel.completeEltSet.findNode toID ≠ none)
  fromName : (r.2.2.panel.node r.1).id = some fromID
  toName : (r.2.2.panel.node r.2.1).id = some toID
  names : ∀ n < v.panel.nodesMade,
    (r.2.2.panel.node n).id = (v.panel.node n).id ∧ (r.2.2.panel.node n).lbl = (v.panel.node n).lbl
  edge : ∀ e ∈ v.panel.shown, r.2.2.panel.edge e = v.panel.edge e

theorem endNodes_spec (h : Kept out v.panel) (hout : ∀ n, out n → n < v.panel.nodesMade) (fromID toID : String) :
    EndNodes out fromID toID v (endNodes fromID toID v) := by
  have hfound : ∀ id, ∀ n ∈ v.panel.completeEltSet.findNode id, n < v.panel.nodesMade ∧ (v.panel.node n).id = some id :=
    fun id n hn => ⟨h.findNode_lt n hn, ((h.registered.findNode id n).1 hn).2⟩
  have hf : EndNode out (v.panel.completeEltSet.findNode fromID) fromID v
      (endNode (v.panel.completeEltSet.findNode fromID) fromID v) := endNode_spec h hout (hfound fromID)
  unfold endNodes
  generalize hfe : endNode (v.panel.completeEltSet.findNode fromID) fromID v = f at hf
  have hout' : ∀ n, out n → n < f.2.panel.nodesMade := fun n hn => Nat.lt_of_lt_of_le (hout n hn) hf.made.1
  have ht : EndNode out (v.panel.completeEltSet.findNode toID) toID f.2
      (endNode (v.panel.completeEltSet.findNode toID) toID f.2) := endNode_spec hf.kept hout' fun n hn =>
    ⟨Nat.lt_of_lt_of_le (hfound toID n hn).1 hf.made.1, (hf.names n (hfound toID n hn).1).1.trans (hfound toID n hn).2⟩
  generalize hte : endNode (v.panel.completeEltSet.findNode toID) toID f.2 = t at ht
  dsimp only
  rw [hte]
  have hfrom : f.2.panel.completeEltSet.findNode fromID = some f.1 := by
    rw [← hfe]
    cases hff : v.panel.completeEltSet.findNode fromID with
    | none => exact (addNew_spec h hout fromID).found hff
    | some n => exact hff
  refine ⟨ht.kept, ⟨Nat.le_trans hf.made.1 ht.made.1, Nat.lt_of_lt_of_le hf.made.2 ht.made.1, ht.made.2⟩,
    ht.shown.trans hf.shown, ht.edgeCnt.trans hf.edgeCnt, ht.nodeCnt.trans hf.nodeCnt,
    fun k n hk => ht.old k n (hf.old k n hk), ht.old _ _ hfrom, fun hne => ?_, fun heq hnone => ?_, ?_,
    (ht.names _ hf.made.2).1.trans hf.name, ht.name, fun n hn => ?_, fun e he => ?_⟩
  · cases htt : v.panel.completeEltSet.findNode toID with
    | some n =>
      have := ht.old toID n (hf.old toID n htt)
      rw [this, ← hte, htt]
      rfl
    | none =>
      -- the first end has another ID, so this one is still free
      have hfree : f.2.panel.completeEltSet.findNode toID = none :=
        (hf.other toID fun heq => hne heq.symm htt).trans htt
      rw [← hte, htt]
      exact (addNew_spec hf.kept hout' toID).found hfree
  · -- the first end has taken the ID, so the second one is rejected
    subst heq
    have htaken : f.2.panel.completeEltSet.findNode fromID ≠ none := by rw [hfrom]; exact Option.some_ne_none _
    rw [← hte, hnone]
    refine fun hmem => ?_
    rw [show (endNode none fromID f.2).2.panel.completeEltSet.nodes = f.2.panel.completeEltSet.nodes from
      (addNew_spec hf.kept hout' fromID).rejected htaken] at hmem
    exact Nat.lt_irrefl _ (hf.kept.shape.nodes _ hmem).1
  · obtain ⟨new, hnew, hold, hfree⟩ := hf.nodes
    obtain ⟨new', hnew', hold', hfree'⟩ := ht.nodes
    refine ⟨new ++ new', by rw [hnew', hnew, List.append_assoc], ?_⟩
    rw [List.append_eq_nil_iff]
    refine ⟨fun hnil => ?_, fun hne => ⟨hold hne.1, hold' hne.2⟩⟩
    have hffound : v.panel.completeEltSet.findNode fromID ≠ none := fun hno => hfree hno hno hnil.1
    refine ⟨hffound, fun hno => hfree' hno ?_ hnil.2⟩
    rw [hf.other toID, hno]
    rintro rfl
    exact hffound hno
  · have h1 := hf.names n hn
    have h2 := ht.names n (Nat.lt_of_lt_of_le hn hf.made.1)
    exact ⟨h2.1.trans h1.1, h2.2.trans h1.2⟩
  · exact (ht.edge e (hf.shown ▸ he)).trans (hf.edge e he)

/-! ## Other handlers -/

theorem setLabel_node (label : String) (n m : NodeRef) (v : Viewer D) :
    ((setLabel label n v).panel.node m).id = (v.panel.node m).id ∧
      ((setLabel label n v).panel.node m).edges = (v.panel.node m).edges := by
  by_cases hm : m = n
  · subst hm; simp [setLabel, St.setNode]
  · simp [setLabel, St.setNode, hm]

theorem setLabel_kept (h : Kept out v.panel) (label : String) (n : NodeRef) : Kept out (setLabel label n v).panel := by
  have hnode := fun m => setLabel_node label n m v
  refine ⟨⟨h.shape.nodes, h.shape.nodup, h.shape.edges, h.shape.nodupEdges, fun m hm => ?_, fun m e he => ?_⟩, h.same,
    h.registered.congr rfl rfl fun m _ => (hnode m).1⟩
  · rw [(hnode m).2]
    exact h.shape.vector m hm
  · rw [(hnode m).2] at he
    exact h.shape.ends m e he

section
variable [DecidableEq D] (env : Env D)

/-- The rule for the attributes of a node: what setting the label, the place and `fixed` keeps, and being
thrown at. -/
theorem nodeAttributes_rule {P : Viewer D → Prop} (node : Option NodeRef)
    (hlabel : ∀ label v, ∀ n ∈ node, P v → P (setLabel label n v)) (hfixed : ∀ v, ∀ n ∈ node, P v → P (setFixed n v))
    (hplace : ∀ x y v, ∀ n ∈ node, P v → P (setLocation x y n v)) (hthrow : ∀ v x, P v → P { v with thrown := some x }) :
    ∀ (rest : Attributes) (x y : D) (v : Viewer D), P v → P (nodeAttributes env node rest x y v)
  | [], x, y, v, h => by
    unfold nodeAttributes
    split
    · exact h
    · cases node with
      | none => exact hthrow v _ h
      | some n => exact hplace _ _ v n rfl h
  | (name, value) :: rest, x, y, v, h => by
    have ih := nodeAttributes_rule node hlabel hfixed hplace hthrow rest
    unfold nodeAttributes
    split
    · cases node with
      | none => exact hthrow v _ h
      | some n => exact ih x y _ (hlabel value v n rfl h)
    · split
      · exact ih _ y v h
      · split
        · exact ih x _ v h
        · split
          · cases node with
            | none => exact hthrow v _ h
            | some n => exact ih x y _ (hfixed v n rfl h)
          · exact ih x y v h

end

/-- A `to` attribute of an edge has been handled. -/
structure Connected (out : NodeRef → Prop) (v v' : Viewer D) : Prop where
  kept : Kept out v'.panel
  made : v.panel.nodesMade ≤ v'.panel.nodesMade
  nodeCnt : v'.nodeCnt - v'.panel.completeEltSet.nodes.length = v.nodeCnt - v.panel.completeEltSet.nodes.length
  edgeCnt : v'.edgeCnt - v'.panel.shown.length = v.edgeCnt - v.panel.shown.length
  old : ∀ k n, v.panel.completeEltSet.findNode k = some n → v'.panel.completeEltSet.findNode k = some n

/-- An edge that was found is in the panel already. -/
theorem addMade_found {s : St} {f t : NodeRef} {e : EdgeRef} (h : VisibleLocality.findEdge f t s = some e) :
    TGPanel.addMade e s = TGPanel.updatePartitions s := by
  have he : e ∈ s.visibleLocality.edges := by
    have := (Option.filter_eq_some_iff.1 h).2
    simpa using this
  rw [TGPanel.addMade, VisibleLocality.addEdge, if_pos he]

theorem connectEdge_spec (h : Kept out v.panel) (hout : ∀ n, out n → n < v.panel.nodesMade)
    (hsub : ∀ n, out n → out' n) {fromID toID : String}
    (hto : (endNodes fromID toID v).2.1 ∈ (endNodes fromID toID v).2.2.panel.completeEltSet.nodes ∨
      out' (endNodes fromID toID v).2.1) (ht : (connectEdge ntag fromID toID v).thrown = none) :
    Connected out' v (connectEdge ntag fromID toID v) ∧
      (connectEdge ntag fromID toID v).panel.nodesMade = (endNodes fromID toID v).2.2.panel.nodesMade ∧
      ∀ k, (connectEdge ntag fromID toID v).panel.completeEltSet.findNode k =
        (endNodes fromID toID v).2.2.panel.completeEltSet.findNode k := by
  have hn := endNodes_spec h hout fromID toID
  unfold connectEdge at ht ⊢
  generalize endNodes fromID toID v = r at hn hto ht ⊢
  obtain ⟨f, t, w⟩ := r
  dsimp only at hto ht ⊢
  have hkept : Kept out' w.panel := hn.kept.mono hsub
  have hf : f ∈ w.panel.completeEltSet.nodes := ((hn.kept.registered.findNode fromID f).1 hn.fromNode).1
  split at ht
  · rename_i hm
    rw [if_pos hm]
    cases hfe : VisibleLocality.findEdge f t w.panel with
    | none => simp [addConnect, hfe] at ht
    | some e =>
      have hr := hkept.redraw
      have heq : (addConnect { w with connect := some e }).panel = TGPanel.updatePartitions w.panel := addMade_found hfe
      refine ⟨⟨by rw [heq]; exact hr.kept, by rw [heq, hr.nodesMade]; exact hn.made.1, ?_, ?_, fun k n hk => ?_⟩,
        by rw [heq]; exact hr.nodesMade, fun k => by rw [heq]; exact hr.findNode k⟩
      · rw [heq, hr.nodes]
        exact hn.nodeCnt
      · rw [heq, hr.shown, hn.shown, show (addConnect { w with connect := some e }).edgeCnt = w.edgeCnt from rfl, hn.edgeCnt]
      · rw [heq, hr.findNode]
        exact hn.old k n hk
  · rename_i hm
    rw [if_neg hm]
    have heq : (addConnect (connectNew f t w)).panel = TGPanel.updatePartitions
        (VisibleLocality.addEdge w.panel.edgesMade (newEdge f t true w.panel)) := rfl
    have hnew := hkept.addNew_eq f t true
    have hr := (hkept.addNew true ⟨hn.made.2.1, .inl hf⟩ ⟨hn.made.2.2, hto⟩).redraw
    have hfind : ∀ k, (addConnect (connectNew f t w)).panel.completeEltSet.findNode k =
        w.panel.completeEltSet.findNode k := fun k => by
      rw [heq, hr.findNode, GraphEltSet.findNode, hnew.registry]
      rfl
    refine ⟨⟨by rw [heq]; exact hr.kept, by rw [heq, hr.nodesMade, hnew.nodesMade]; exact hn.made.1, ?_, ?_,
      fun k n hk => ?_⟩, by rw [heq, hr.nodesMade, hnew.nodesMade], hfind⟩
    · rw [heq, hr.nodes, hnew.nodes]
      exact hn.nodeCnt
    · have hlen : (addConnect (connectNew f t w)).panel.shown.length = w.panel.shown.length + 1 := by
        rw [heq, hr.shown, hnew.shown]
        simp
      have hcnt : (addConnect (connectNew f t w)).edgeCnt = w.edgeCnt + 1 := rfl
      rw [hlen, hcnt, hn.shown, hn.edgeCnt]
      omega
    · rw [hfind]
      exact hn.old k n hk

/-! ## The loop over the attributes -/

section
variable [DecidableEq D] (env : Env D)

/-- `P` holds of every attribute in the state it is handled in. -/
def Every (P : Option String → String → String → Viewer D → Prop) (ntag : String) :
    Option String → Attributes → Viewer D → Prop
  | _, [], _ => True
  | prev, (name, value) :: rest, v =>
    if toLowerCase name = "id" ∧ isNode ntag = true then True
    else P prev name value v ∧ Every P ntag (some value) rest (attributeBranch env ntag prev name value v)

def decEvery {P : Option String → String → String → Viewer D → Prop} (hdec : ∀ prev name value v, Decidable (P prev name value v))
    (ntag : String) : (prev : Option String) → (attrs : Attributes) → (v : Viewer D) → Decidable (Every env P ntag prev attrs v)
  | _, [], _ => isTrue trivial
  | prev, (name, value) :: rest, v =>
    have := hdec prev name value v
    have := decEvery hdec ntag (some value) rest (attributeBranch env ntag prev name value v)
    inferInstanceAs (Decidable (if toLowerCase name = "id" ∧ isNode ntag = true then True else _ ∧ _))

/-- The rule for the loop: what every attribute keeps that throws nothing. -/
theorem attributes_rule {P : Option String → String → String → Viewer D → Prop} {I : Viewer D → Prop}
    (hnode : ∀ id rest v, I v → I (nodeElement env ntag id rest v))
    (hattr : ∀ prev name value v, I v → P prev name value v → (attributeBranch env ntag prev name value v).thrown = none →
      I (attributeBranch env ntag prev name value v)) :
    ∀ (prev : Option String) (attrs : Attributes) (v : Viewer D), I v → Every env P ntag prev attrs v →
      (attributes env ntag prev attrs v).thrown = none → I (attributes env ntag prev attrs v)
  | _, [], _, h, _, _ => h
  | prev, (name, value) :: rest, v, h, he, ht => by
    unfold attributes at ht ⊢
    unfold Every at he
    split
    · exact hnode value rest v h
    · rename_i hid
      rw [if_neg hid] at ht he
      dsimp only at ht ⊢
      cases hb : (attributeBranch env ntag prev name value v).thrown with
      | some x =>
        simp [hb] at ht
      | none =>
        simp only [hb, Option.isSome_none, Bool.false_eq_true, if_false] at ht ⊢
        exact attributes_rule hnode hattr (some value) rest _ (hattr prev name value v h he.1 hb) he.2 ht

theorem nodeElement_kept (h : Kept out v.panel) (hout : ∀ n, out n → n < v.panel.nodesMade) (id : String)
    (rest : Attributes) : Kept out (nodeElement env ntag id rest v).panel := by
  have hrule := fun node => nodeAttributes_rule env (P := fun v => Kept out v.panel) node
    (fun label _ n _ h => setLabel_kept h label n) (fun _ _ _ h => h) (fun _ _ _ _ _ h => h) (fun _ _ h => h)
  unfold nodeElement
  split
  · exact hrule _ rest _ _ _ (addNew_spec h hout id).kept
  · exact hrule _ rest _ _ _ h

/-! ## Ends in the graph -/

/-- A new edge does not name one unknown ID for both ends. -/
def EndsKnown (ntag : String) (prev : Option String) (name value : String) (v : Viewer D) : Prop :=
  toLowerCase name = "to" → isEdge ntag = true → ntag ≠ "modify_edge" → prev = some value →
    v.panel.completeEltSet.findNode value ≠ none

instance (ntag : String) (prev : Option String) (name value : String) (v : Viewer D) :
    Decidable (EndsKnown ntag prev name value v) := inferInstanceAs (Decidable (_ → _ → _ → _ → _))

omit [DecidableEq D] in
/-- No edge leads to the node that was rejected. -/
theorem findEdge_absent (h : Kept (fun _ => False) v.panel) {id : String} (hnone : v.panel.completeEltSet.findNode id = none) :
    VisibleLocality.findEdge (endNodes id id v).1 (endNodes id id v).2.1 (endNodes id id v).2.2.panel = none := by
  have hn := endNodes_spec h (fun _ hf => hf.elim) id id
  have hf := ((hn.kept.registered.findNode id _).1 hn.fromNode).1
  have habs := hn.absent rfl hnone
  rw [VisibleLocality.findEdge, GraphEltSet.findEdge, List.find?_eq_none.2 fun e he => ?_]
  · rfl
  · have hmem := ((hn.kept.shape.mem_vector hf).1 he).1
    have hto := Shape.node_of_touches hn.kept.shape hmem (.inr rfl)
    simp only [decide_eq_true_eq]
    exact fun heq => habs (heq ▸ hto)

omit [DecidableEq D] in
theorem connectEdge_known (h : Kept (fun _ => False) v.panel) {fromID toID : String}
    (hknown : ntag ≠ "modify_edge" → fromID = toID → v.panel.completeEltSet.findNode toID ≠ none)
    (ht : (connectEdge ntag fromID toID v).thrown = none) :
    Connected (fun _ => False) v (connectEdge ntag fromID toID v) ∧
      (∃ n, (connectEdge ntag fromID toID v).panel.completeEltSet.findNode fromID = some n) ∧
      ∃ n, (connectEdge ntag fromID toID v).panel.completeEltSet.findNode toID = some n := by
  have hout : ∀ n : NodeRef, False → n < v.panel.nodesMade := fun _ hf => hf.elim
  have hn := endNodes_spec h hout fromID toID
  -- `modify_edge` of one unknown ID throws
  have hto : fromID = toID → v.panel.completeEltSet.findNode toID ≠ none := by
    intro heq
    by_cases hm : ntag = "modify_edge"
    · intro hnone
      subst heq
      simp [connectEdge, hm, findEdge_absent h hnone, addConnect] at ht
    · exact hknown hm heq
  have htn := hn.toNode hto
  have hsub : ∀ n : NodeRef, False → False := fun _ hf => hf
  obtain ⟨hc, -, hfind⟩ := connectEdge_spec h hout hsub (.inl ((hn.kept.registered.findNode toID _).1 htn).1) ht
  exact ⟨hc, ⟨_, (hfind fromID).trans hn.fromNode⟩, ⟨_, (hfind toID).trans htn⟩⟩

omit [DecidableEq D] in
theorem removeNode_kept (h : Kept out v.panel) (id : String) : Kept out (removeNode id v).panel := by
  unfold removeNode
  cases hf : v.panel.completeEltSet.findNode id with
  | none => exact h
  | some n => exact (h.deleteNode ((h.registered.findNode id n).1 hf).1).kept.redraw.kept

omit [DecidableEq D] in
theorem removeEdge_kept (h : Kept out v.panel) (fromID toID : String) : Kept out (removeEdge fromID toID v).panel := by
  unfold removeEdge
  split
  · rename_i f t _ _
    dsimp only [TGPanel.deleteEdgeBetween]
    cases VisibleLocality.findEdge f t v.panel with
    | none => exact h.redraw.kept
    | some e => exact (h.deleteEdge e).redraw.kept
  · exact h

omit [DecidableEq D] in
theorem quality_panel (value : String) (v : Viewer D) : (quality env value v).panel = v.panel := by
  unfold quality
  split
  · rfl
  · split <;> rfl

omit [DecidableEq D] in
theorem attributeBranch_kept {prev : Option String} {name value : String} (h : Kept (fun _ => False) v.panel)
    (hk : EndsKnown ntag prev name value v) :
    (attributeBranch env ntag prev name value v).thrown = none →
      Kept (fun _ => False) (attributeBranch env ntag prev name value v).panel := by
  refine attributeBranch_rule env (P := fun w => w.thrown = none → Kept (fun _ => False) w.panel) ?_ ?_ ?_ ?_ ?_ ?_
  · exact fun _ _ _ => removeNode_kept h value
  · intro fromID hto hprev hedge ht
    exact (connectEdge_known h (fun hm heq => hk hto hedge hm (heq ▸ hprev)) ht).1.kept
  · exact fun fromID _ _ _ _ => removeEdge_kept h fromID value
  · intro _ _
    rw [quality_panel]
    exact h
  · exact fun _ _ => h
  · exact fun _ _ _ _ => h

/-- The IDs that an edge element names. -/
def namedIDs : Option String → Attributes → List String
  | _, [] => []
  | prev, (name, value) :: rest =>
    (if toLowerCase name = "to" then prev.toList.flatMap fun fromID => [fromID, value] else []) ++
      namedIDs (some value) rest

omit [DecidableEq D] in
theorem attributeBranch_named (hedge : isEdge ntag = true) {prev : Option String} {name value : String}
    (h : Kept (fun _ => False) v.panel) (hk : EndsKnown ntag prev name value v)
    (ht : (attributeBranch env ntag prev name value v).thrown = none) :
    (∀ k n, v.panel.completeEltSet.findNode k = some n →
      (attributeBranch env ntag prev name value v).panel.completeEltSet.findNode k = some n) ∧
    ∀ id ∈ (if toLowerCase name = "to" then prev.toList.flatMap fun fromID => [fromID, value] else []),
      ∃ n, (attributeBranch env ntag prev name value v).panel.completeEltSet.findNode id = some n := by
  refine attributeBranch_rule env (P := fun w => w.thrown = none →
    (∀ k n, v.panel.completeEltSet.findNode k = some n → w.panel.completeEltSet.findNode k = some n) ∧
      ∀ id ∈ (if toLowerCase name = "to" then prev.toList.flatMap fun fromID => [fromID, value] else []),
        ∃ n, w.panel.completeEltSet.findNode id = some n) ?_ ?_ ?_ ?_ ?_ ?_ ht
  · rintro - rfl
    exact absurd hedge (by decide)
  · rintro fromID hto rfl - ht
    obtain ⟨hc, hf, htn⟩ := connectEdge_known h (fun hm heq => hk hto hedge hm (heq ▸ rfl)) ht
    refine ⟨hc.old, fun id hid => ?_⟩
    have hid : id = fromID ∨ id = value := by simpa [hto] using hid
    rcases hid with rfl | rfl
    · exact hf
    · exact htn
  · rintro _ - - rfl
    exact absurd hedge (by decide)
  · intro hval _
    rw [quality_panel, if_neg (by rw [hval]; decide)]
    exact ⟨fun _ _ hkn => hkn, by simp⟩
  · intro hpix _
    rw [if_neg (by rw [hpix]; decide)]
    exact ⟨fun _ _ hkn => hkn, by simp⟩
  · intro _ hno _ _
    refine ⟨fun _ _ hkn => hkn, fun id hid => ?_⟩
    split at hid
    · rename_i hto
      obtain ⟨fromID, hprev, -⟩ := List.mem_flatMap.1 hid
      exact absurd hedge (hno fromID hto (Option.mem_toList.1 hprev)).1
    · cases hid

/-- An edge element loses no ID, and has all IDs it names. -/
theorem attributes_named (hedge : isEdge ntag = true) : ∀ (prev : Option String) (attrs : Attributes) (v : Viewer D),
    Kept (fun _ => False) v.panel → Every env (EndsKnown ntag) ntag prev attrs v →
    (attributes env ntag prev attrs v).thrown = none →
    (∀ k n, v.panel.completeEltSet.findNode k = some n →
      (attributes env ntag prev attrs v).panel.completeEltSet.findNode k = some n) ∧
    ∀ id ∈ namedIDs prev attrs, ∃ n, (attributes env ntag prev attrs v).panel.completeEltSet.findNode id = some n
  | _, [], _, _, _, _ => ⟨fun _ _ hk => hk, by simp [namedIDs]⟩
  | prev, (name, value) :: rest, v, h, he, ht => by
    have hnode : ¬(toLowerCase name = "id" ∧ isNode ntag = true) := by
      rintro ⟨-, hn⟩
      simp only [isNode, isNewNode, isEdge, Bool.or_eq_true, decide_eq_true_eq] at hn hedge
      rcases hn with (rfl | rfl) | rfl <;> simp at hedge
    unfold attributes at ht ⊢
    unfold Every at he
    rw [if_neg hnode] at ht he ⊢
    dsimp only at ht ⊢
    cases hb : (attributeBranch env ntag prev name value v).thrown with
    | some x => simp [hb] at ht
    | none =>
      simp only [hb, Option.isSome_none, Bool.false_eq_true, if_false] at ht ⊢
      have hk := attributeBranch_kept env h he.1 hb
      obtain ⟨hold, hnamed⟩ := attributes_named hedge (some value) rest _ hk he.2 ht
      have hbranch := attributeBranch_named env hedge h he.1 hb
      refine ⟨fun k n hkn => hold k n (hbranch.1 k n hkn), fun id hid => ?_⟩
      rw [namedIDs] at hid
      rcases List.mem_append.1 hid with hid | hid
      · obtain ⟨n, hn⟩ := hbranch.2 id hid
        exact ⟨n, hold id n hn⟩
      · exact hnamed id hid

/-! ## Runs -/

/-- No new edge of the element names one unknown ID for both ends. -/
def Joins (v : Viewer D) : Event → Prop
  | .startElement qName attrs =>
    toLowerCase qName = "topology" ∨ Every env (EndsKnown (toLowerCase qName)) (toLowerCase qName) none attrs v
  | .endElement _ => True

instance (v : Viewer D) : (ev : Event) → Decidable (Joins env v ev)
  | .startElement qName attrs =>
    have := decEvery env (P := EndsKnown (toLowerCase qName)) (fun _ _ _ _ => inferInstance) (toLowerCase qName) none attrs v
    inferInstanceAs (Decidable (_ ∨ _))
  | .endElement _ => isTrue trivial

/-- The ends of every edge are nodes of the graph, and `findNode` finds them by their IDs. -/
def Intact (s : St) : Prop :=
  ∀ e ∈ s.completeEltSet.edges, ∀ n, s.touches n e →
    n ∈ s.completeEltSet.nodes ∧ ∃ id, (s.node n).id = some id ∧ s.completeEltSet.findNode id = some n

theorem intact_of_kept {s : St} (h : Kept (fun _ => False) s) : Intact s := fun e he n hn => by
  have hmem := Shape.node_of_touches h.shape he hn
  obtain ⟨id, hid⟩ := h.registered.id n hmem
  exact ⟨hmem, id, hid, (h.registered.findNode id n).2 ⟨hmem, hid⟩⟩

theorem handle_kept (h : Kept (fun _ => False) v.panel) {ev : Event} (hj : Joins env v ev)
    (ht : (handle env ev v).thrown = none) : Kept (fun _ => False) (handle env ev v).panel := by
  cases ev with
  | startElement qName attrs =>
    simp only [handle, startElement] at ht ⊢
    split
    · exact h.clearAll
    · rename_i htag
      rw [if_neg htag] at ht
      exact attributes_rule env (I := fun v => Kept (fun _ => False) v.panel)
        (fun id rest v h => nodeElement_kept env h (fun _ hf => hf.elim) id rest)
        (fun _ _ _ v h hk ht => attributeBranch_kept env h hk ht) none attrs v h (hj.resolve_left htag) ht
  | endElement qName =>
    simp only [handle, endElement]
    split <;> exact h

omit [DecidableEq D] in
theorem kept_init : Kept (fun _ => False) (init env).panel := Tidy.init.kept

/-- What an exception leaves is not asked about. -/
theorem reach_kept (h : Lts.Reach (step env) (Joins env) (init env) v) (ht : v.thrown = none) :
    Kept (fun _ => False) v.panel := by
  refine h.invariant (I := fun v => v.thrown = none → Kept (fun _ => False) v.panel) (fun _ => kept_init env)
    (fun v ev v' hv hj hs ht => ?_) ht
  unfold step at hs
  split at hs
  · cases hs
  · rename_i hn
    have hn : v.thrown = none := by simpa using hn
    obtain rfl := Option.some.inj hs
    exact handle_kept env (hv hn) hj ht

/-- **In a stream whose new edges do not name one unknown ID twice, every edge of the graph ends at nodes that
the registry finds by their IDs; and an edge element that throws nothing leaves exactly one node for each ID it
names.** -/
theorem referential_integrity (h : Lts.Reach (step env) (Joins env) (init env) v) (ht : v.thrown = none) :
    Intact v.panel ∧ ∀ qName attrs, isEdge (toLowerCase qName) = true → Joins env v (.startElement qName attrs) →
      (startElement env qName attrs v).thrown = none → ∀ id ∈ namedIDs none attrs,
      ∃! n, n ∈ (startElement env qName attrs v).panel.completeEltSet.nodes ∧
        ((startElement env qName attrs v).panel.node n).id = some id := by
  have hk := reach_kept env h ht
  refine ⟨intact_of_kept hk, fun qName attrs hedge hj ht' id hid => ?_⟩
  have hk' : Kept (fun _ => False) (handle env (.startElement qName attrs) v).panel := handle_kept env hk hj ht'
  have htag : toLowerCase qName ≠ "topology" := by
    intro heq
    rw [heq] at hedge
    exact absurd hedge (by decide)
  obtain ⟨n, hn⟩ : ∃ n, (startElement env qName attrs v).panel.completeEltSet.findNode id = some n := by
    unfold startElement at ht' ⊢
    rw [if_neg htag] at ht' ⊢
    exact (attributes_named env hedge none attrs v hk (hj.resolve_left htag) ht').2 id hid
  refine ⟨n, (hk'.registered.findNode id n).1 hn, fun m hm => ?_⟩
  have hm := (hk'.registered.findNode id m).2 hm
  exact Option.some.inj (hm.symm.trans hn)

end

/-- The element names a new node for both ends. -/
def loopStream : List Event := [.startElement "edge" [("from", "1"), ("to", "1")]]

theorem loopStream_possible : (Lts.execOk (step decimal) Lts.Any (init decimal) loopStream).isSome = true := by
  decide +kernel

/-- The second of two nodes with one ID is rejected, the edge leads to it all the same. -/
theorem unknown_loop_dangles : ¬∀ v, Lts.Reach (step decimal) Lts.Any (init decimal) v → v.thrown = none →
    Intact v.panel := by
  intro hall
  have hv := hall _ (Lts.reach_get loopStream loopStream_possible) (by decide +kernel)
  have hto := hv 0 (by decide +kernel) 1 (by decide +kernel)
  exact absurd hto.1 (by decide +kernel)

/-- A loop at a node that exists, an edge to a new node, and the first node goes away. -/
def edgeStream : List Event :=
  [.startElement "node" [("id", "1")], .startElement "edge" [("from", "1"), ("to", "1")],
    .startElement "edge" [("from", "1"), ("to", "2")], .startElement "remove_node" [("id", "1")]]

theorem edgeStream_possible : (Lts.execOk (step decimal) (Joins decimal) (init decimal) edgeStream).isSome = true := by
  decide +kernel

def edgeViewer : Viewer Int :=
  (Lts.execOk (step decimal) (Joins decimal) (init decimal) edgeStream).get edgeStream_possible

theorem referential_integrity_edge : Intact edgeViewer.panel ∧
    ∃! n, n ∈ (startElement decimal "add_edge" [("from", "2"), ("to", "3")] edgeViewer).panel.completeEltSet.nodes ∧
      ((startElement decimal "add_edge" [("from", "2"), ("to", "3")] edgeViewer).panel.node n).id = some "3" := by
  have hall := referential_integrity decimal (v := edgeViewer) (Lts.reach_get edgeStream edgeStream_possible)
    (by decide +kernel)
  exact ⟨hall.1, hall.2 "add_edge" [("from", "2"), ("to", "3")] (by decide +kernel) (by decide +kernel)
    (by decide +kernel) "3" (by decide +kernel)⟩

end InputParser

end Topo
