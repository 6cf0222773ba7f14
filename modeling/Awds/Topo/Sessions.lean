import Awds.Topo.Commands

/-!
# Sessions

A user browses: commands come one after the other, from a graph that was edited before. The graph is as it was
when the session is over, but edges have become invisible on the way, and the next edit deletes these:
`updatePartitions` cannot tell them from the ones that it made itself.
-/

namespace Topo

open GESUtils TGPanel

variable {s s' t : St} {n m a b : NodeRef} {e k : EdgeRef} {N E : NodeRef → Prop} {v v' : View}

/-! ## What the next edit deletes -/

/-- What `updatePartitions` needs of the element sets. The locality may have fewer nodes and edges. -/
structure Sets (s : St) : Prop where
  made : ∀ e ∈ s.completeEltSet.edges, e < s.edgesMade
  nodup : s.completeEltSet.edges.Nodup
  sub : ∀ e ∈ s.visibleLocality.edges, e ∈ s.completeEltSet.edges
  subNodup : s.visibleLocality.edges.Nodup

theorem Sets.deleteEdge (h : Sets s) (e : EdgeRef) : Sets (VisibleLocality.deleteEdge (some e) s) := by
  obtain ⟨hcomp, hloc, -⟩ := VisibleLocality.deleteEdge_edges s e
  have hmade : (VisibleLocality.deleteEdge (some e) s).edgesMade = s.edgesMade :=
    (GraphEltSet.deleteEdge_frame e (VisibleLocality.removeEdge s e)).2.2.1.trans (VisibleLocality.removeEdge_frame s e).2.2.1
  refine ⟨?_, ?_, ?_, ?_⟩
  · rw [hcomp, hmade]
    exact fun k hk => h.made k (List.mem_of_mem_erase hk)
  · rw [hcomp]
    exact h.nodup.erase e
  · rw [hcomp, hloc]
    intro k hk
    obtain ⟨hne, hk⟩ := h.subNodup.mem_erase_iff.1 hk
    exact h.nodup.mem_erase_iff.2 ⟨hne, h.sub k hk⟩
  · rw [hloc]
    exact h.subNodup.erase e

theorem Sets.not_mem (h : Sets s) : s.edgesMade ∉ s.completeEltSet.edges := fun hm => Nat.lt_irrefl _ (h.made _ hm)

theorem Sets.added (h : Sets s) (a b : NodeRef) : Added s.edgesMade (Topo.newEdge a b false s)
    (VisibleLocality.addEdge s.edgesMade (Topo.newEdge a b false s)) :=
  VisibleLocality.addEdge_added h.not_mem fun hm => h.not_mem (h.sub _ hm)

theorem Sets.addInvisible (h : Sets s) (a b : NodeRef) :
    Sets (VisibleLocality.addEdge s.edgesMade (Topo.newEdge a b false s)) := by
  have ha := h.added a b
  have hcomp : (Topo.newEdge a b false s).completeEltSet = s.completeEltSet := rfl
  have hloc : (Topo.newEdge a b false s).visibleLocality = s.visibleLocality := rfl
  have hmade : (Topo.newEdge a b false s).edgesMade = s.edgesMade + 1 := rfl
  refine ⟨fun k hk => ?_, ?_, fun k hk => ?_, ?_⟩
  · rw [ha.complete, hcomp, List.mem_append, List.mem_singleton] at hk
    rw [ha.edgesMade, hmade]
    rcases hk with hk | rfl
    · exact Nat.lt_succ_of_lt (h.made k hk)
    · exact Nat.lt_succ_self _
  · rw [ha.complete, hcomp]
    exact nodup_concat h.nodup h.not_mem
  · rw [ha.locality, hloc] at hk
    rw [ha.complete, hcomp]
    exact List.mem_append.2 ((List.mem_append.1 hk).imp_left (h.sub k))
  · rw [ha.locality, hloc]
    exact nodup_concat h.subNodup fun hm => h.not_mem (h.sub _ hm)

/-- An edge of the graph stays there when it is visible, and not else. -/
theorem Sets.survives_iff (h : Sets s) (he : e ∈ s.completeEltSet.edges) :
    e ∈ (updatePartitions s).completeEltSet.edges ↔ s.isVisible e = true := by
  constructor
  · intro hm
    by_contra hv
    rw [Bool.not_eq_true] at hv
    -- the first loop deletes it, and what the second adds is new
    obtain ⟨hs, hall⟩ := removeInvisible_rule
      (I := fun s => Sets s ∧ e < s.edgesMade ∧ s.isVisible e = false) (fun s h => h.1.nodup)
      (fun s k h _ hk => by
        refine ⟨h.1.deleteEdge k, ?_, by rw [VisibleLocality.deleteEdge_visible hk]; exact h.2.2⟩
        rw [VisibleLocality.deleteEdge, (GraphEltSet.deleteEdge_frame k (VisibleLocality.removeEdge s k)).2.2.1,
          (VisibleLocality.removeEdge_frame s k).2.2.1]
        exact h.2.1) s.completeEltSet.edges.length s ⟨h, h.made e he, hv⟩
      fun k hk _ => by rwa [List.take_of_length_le (Nat.le_refl _)]
    refine (buildInvisible_rule (I := fun s => Sets s ∧ e < s.edgesMade ∧ e ∉ s.completeEltSet.edges)
      (fun s a b h _ _ => ?_) _ _ ⟨hs.1, hs.2.1, fun hm => ?_⟩ (partitions_subset _)).2.2 hm
    · have ha := h.1.added a b
      refine ⟨h.1.addInvisible a b, by rw [ha.edgesMade]; exact Nat.lt_succ_of_lt h.2.1, ?_⟩
      rw [ha.complete]
      intro hm
      rcases List.mem_append.1 hm with hm | hm
      · exact h.2.2 hm
      · exact Nat.ne_of_lt h.2.1 (List.mem_singleton.1 hm)
    · have hon := hall e hm
      rw [hs.2.2] at hon
      cases hon
  · intro hv
    refine (updatePartitions_rule (I := fun s => Sets s ∧ Shown e s) (fun s h => h.1.nodup) (fun s k h _ hk => ?_)
      (fun s a b h _ _ => ?_) ⟨h, he, hv⟩).2.1
    · refine ⟨h.1.deleteEdge k, h.2.deleteEdge ?_⟩
      rintro rfl
      rw [h.2.2] at hk
      cases hk
    · have ha := h.1.added a b
      have hne : e ≠ s.edgesMade := Nat.ne_of_lt (h.1.made e h.2.1)
      refine ⟨h.1.addInvisible a b, ?_, ?_⟩
      · rw [ha.complete]
        exact List.mem_append_left _ h.2.1
      · have hon := h.2.2
        rw [St.isVisible, ha.edge]
        simpa [Topo.newEdge, St.isVisible, hne] using hon

/-! ## Commands, one after the other -/

inductive Command where
  | setLocale (keys : List NodeRef → List NodeRef) (n : Option NodeRef) (radius : Int) (l : Limits)
  | expandNode (n : NodeRef)
  | hideNode (n : NodeRef)
  | collapseNode (n : NodeRef)

namespace Command

/-- What is expanded is a node that is shown. When it comes to `hideNode` or `collapseNode` the node may have
gone. The entries of the popup menu for the three are commented out (`GLEditUI.java:215-252`). -/
def Offered (v : View) : Command → Prop
  | .setLocale keys _ _ _ => ∀ l, (keys l).Perm l
  | .expandNode n => n ∈ v.panel.visibleLocality.nodes
  | .hideNode _ | .collapseNode _ => True

/-- The command collapses an end of `e`. -/
def Collapses (s : St) (e : EdgeRef) : Command → Prop
  | .collapseNode n => s.touches n e
  | _ => False

end Command

namespace View

def command (v : View) : Command → View
  | .setLocale keys n radius l => v.setLocale keys n radius l
  | .expandNode n => v.expandNode n
  | .hideNode n => v.hideNode n
  | .collapseNode n => v.collapseNode n

def session (v : View) (cs : List Command) : View := cs.foldl command v

def Possible : View → List Command → Prop
  | _, [] => True
  | v, c :: cs => c.Offered v ∧ Possible (v.command c) cs

/-- The edge is shown from the first state to the last, and no end of it is collapsed. -/
def Spared (e : EdgeRef) : View → List Command → Prop
  | v, [] => e ∈ v.panel.visibleLocality.edges
  | v, c :: cs => e ∈ v.panel.visibleLocality.edges ∧ ¬c.Collapses v.panel e ∧ Spared e (v.command c) cs

theorem Spared.shown : ∀ {cs : List Command} {v : View}, Spared e v cs → e ∈ v.panel.visibleLocality.edges
  | [], _, h => h
  | _ :: _, _, h => h.1

theorem Idle.shown (h : Idle v) (hk : k ∈ v.panel.completeEltSet.edges) (hvis : v.panel.isVisible k = true) :
    k ∈ v.panel.visibleLocality.edges := by
  by_contra hkl
  rw [h.browsed.hidden k hk hkl] at hvis
  cases hvis

/-- What a command does to the edges: these stay visible that are shown after it, and not collapsed. -/
structure Steps (v v' : View) (C : EdgeRef → Prop) : Prop where
  idle : Idle v'
  unmoved : Unmoved v.panel v'.panel
  visible : ∀ k ∈ v.panel.completeEltSet.edges, (v'.panel.isVisible k = true ↔
    v.panel.isVisible k = true ∧ k ∈ v'.panel.visibleLocality.edges ∧ ¬C k)

theorem Idle.steps_refl (h : Idle v) {C : EdgeRef → Prop} (hC : ∀ k ∈ v.panel.completeEltSet.edges, ¬C k) :
    Steps v v C where
  idle := h
  unmoved := .refl v.panel
  visible k hk := ⟨fun hvis => ⟨hvis, h.shown hk hvis, hC k hk⟩, And.left⟩

/-- Edges that came were not visible, and those that stayed are as they were. -/
theorem Idle.steps {N K : NodeRef → Prop} {E C : EdgeRef → Prop} (h : Idle v) (h' : Idle v') (hs : Shifted v.panel v'.panel N E)
    (hd : Dimmed v.panel v'.panel K)
    (hK : ∀ k ∈ v.panel.visibleLocality.edges, E k → ((∀ m, v.panel.touches m k → K m) ↔ ¬C k)) : Steps v v' C where
  idle := h'
  unmoved := hs.unmoved
  visible k hk := by
    rw [hd k]
    refine and_congr_right fun hvis => ?_
    have hkl := h.shown hk hvis
    constructor
    · intro hall
      have hkl' : k ∈ v'.panel.visibleLocality.edges :=
        h'.shown (by rw [hs.unmoved.complete]; exact hk) ((hd k).2 ⟨hvis, hall⟩)
      exact ⟨hkl', (hK k hkl ((hs.edges k).1 hkl')).1 (hall hkl)⟩
    · rintro ⟨hkl', hC⟩ -
      exact (hK k hkl ((hs.edges k).1 hkl')).2 hC

theorem dimmed_of_edge (hedge : s'.edge = s.edge) : Dimmed s s' fun _ => True := fun k => by
  rw [St.isVisible, hedge, St.isVisible]
  exact (and_iff_left fun _ _ _ => trivial).symm

theorem Idle.command (h : Idle v) {c : Command} (ho : c.Offered v) : Steps v (v.command c) (c.Collapses v.panel) := by
  cases c with
  | setLocale keys n radius l =>
    change Steps v (v.setLocale keys n radius l) fun _ => False
    have hstay : Steps v v fun _ => False := h.steps_refl fun _ _ => id
    cases n with
    | none => exact hstay
    | some n =>
      rw [setLocale]
      split_ifs with hneg hinf
      · exact hstay
      · obtain ⟨-, hedge, hs⟩ := addAll_spec h.browsed
        exact h.steps ⟨hs.browsed, h.just, h.marked⟩ hs (dimmed_of_edge hedge) fun _ _ _ => by simp
      · by_cases hn : n ∈ v.panel.completeEltSet.nodes
        · obtain ⟨hidle, -, hd, hs⟩ := shift_spec h ho hn radius.toNat l
          exact h.steps hidle hs hd fun k _ hk => iff_of_true hk.2.1 id
        · rw [shiftLocale, if_neg hn]
          exact hstay
  | expandNode n =>
    obtain ⟨hidle, P, hext, -⟩ := expand_spec h ho
    exact h.steps hidle hext.shifted (dimmed_of_edge hext.edge) fun _ _ _ => by simp [Command.Collapses]
  | hideNode n =>
    change Steps v (v.hideNode n) fun _ => False
    by_cases hn : n ∈ v.panel.completeEltSet.nodes
    · obtain ⟨hidle, -, hd, hs⟩ := hide_spec h hn
      exact h.steps hidle hs hd fun k _ hk => iff_of_true (fun m hm => ⟨(hk.2 m hm).1.2, (hk.2 m hm).2⟩) id
    · rw [hideNode, if_neg hn]
      exact h.steps_refl fun _ _ => id
  | collapseNode n =>
    change Steps v (v.collapseNode n) fun k => v.panel.touches n k
    by_cases hn : n ∈ v.panel.completeEltSet.nodes
    · obtain ⟨hidle, hd, hs⟩ := collapse_spec h hn
      refine h.steps hidle hs hd fun k _ hk => ⟨fun hall hkn => (hall n hkn).1 rfl, fun hkn m hm => ?_⟩
      rcases hk.1 m hm with hin | rfl
      · exact ⟨hin.1.2, hin.2⟩
      · exact absurd hm hkn
    · rw [collapseNode, if_neg hn]
      exact h.steps_refl fun k hk hkn => hn (h.browsed.closed k hk n hkn)

/-- The run lemma. -/
theorem session_spec : ∀ {cs : List Command} {v : View}, Idle v → Possible v cs →
    Idle (v.session cs) ∧ Unmoved v.panel (v.session cs).panel ∧
      ∀ k ∈ v.panel.completeEltSet.edges,
        ((v.session cs).panel.isVisible k = true ↔ v.panel.isVisible k = true ∧ Spared k v cs)
  | [], v, h, _ => ⟨h, .refl v.panel, fun k hk => ⟨fun hvis => ⟨hvis, h.shown hk hvis⟩, And.left⟩⟩
  | c :: cs, v, h, hp => by
    have hfirst := h.command hp.1
    obtain ⟨hidle, hu, hvis⟩ := session_spec hfirst.idle hp.2
    refine ⟨hidle, hfirst.unmoved.trans hu, fun k hk => ?_⟩
    have hrest := hvis k (by rw [hfirst.unmoved.complete]; exact hk)
    rw [hfirst.visible k hk] at hrest
    refine hrest.trans ?_
    constructor
    · rintro ⟨⟨hon, -, hc⟩, hsp⟩
      exact ⟨hon, h.shown hk hon, hc, hsp⟩
    · rintro ⟨hon, -, hc, hsp⟩
      exact ⟨⟨hon, hsp.shown, hc⟩, hsp⟩

/-- **Whatever is browsed, the graph stays as it was edited. What is shown is a part of it that is a graph by
itself, the tags count what is hidden, and all of it can be shown again.** -/
theorem session_keeps_graph (h : Lts.Reach call Edits init s) {select : Option NodeRef} {cs : List Command}
    (hp : Possible (start s select) cs) :
    Idle ((start s select).session cs) ∧ Unmoved s ((start s select).session cs).panel ∧
      ∀ keys, ∀ n l, Shifted s (((start s select).session cs).setLocale keys (some n) infiniteRadius l).panel
        (· ∈ s.completeEltSet.nodes) (· ∈ s.completeEltSet.edges) := by
  obtain ⟨hidle, hu, -⟩ := session_spec (start_idle h select) hp
  refine ⟨hidle, hu, fun keys n l => ?_⟩
  obtain ⟨-, -, hs⟩ := addAll_spec hidle.browsed
  have hpos : ¬(infiniteRadius < 0) := by decide
  rw [setLocale, if_neg hpos, if_pos rfl]
  refine ⟨hs.browsed, hu.trans hs.unmoved, fun m => (hs.nodes m).trans ?_, fun k => (hs.edges k).trans ?_⟩
  · rw [hu.complete]
    rfl
  · rw [hu.complete]
    rfl

/-- **The edit after a session deletes an edge of the graph unless it was visible, was shown all the time and
no end of it was collapsed. That the edge is shown again does not help.** -/
theorem session_forgets (h : Lts.Reach call Edits init s) {select : Option NodeRef} {cs : List Command}
    (hp : Possible (start s select) cs) (he : e ∈ s.completeEltSet.edges) :
    e ∈ (updatePartitions ((start s select).session cs).panel).completeEltSet.edges ↔
      s.isVisible e = true ∧ Spared e (start s select) cs := by
  have htidy : Tidy s := h.invariant (I := Tidy) Tidy.init fun _ _ _ ht ho hc => ht.call ho hc
  obtain ⟨hidle, hu, hvis⟩ := session_spec (start_idle h select) hp
  have hcomp : ((start s select).session cs).panel.completeEltSet = s.completeEltSet := hu.complete
  have hmade : ((start s select).session cs).panel.edgesMade = s.edgesMade := hu.edgesMade
  have hsets : Sets ((start s select).session cs).panel := by
    refine ⟨?_, hidle.browsed.complete.2, hidle.browsed.edges.2, hidle.browsed.edges.1⟩
    rw [hcomp, hmade]
    exact fun k hk => (htidy.kept.shape.edges k hk).1
  rw [hsets.survives_iff (by rw [hcomp]; exact he)]
  exact hvis e he

/-- The node in the middle is collapsed, then everything is shown. -/
def chainCommands : List Command := [.collapseNode 1, .setLocale id (some 0) infiniteRadius .default]

theorem chainCommands_possible : Possible (start chain none) chainCommands := ⟨trivial, fun l => .refl l, trivial⟩

theorem session_keeps_graph_chain : Idle ((start chain none).session chainCommands) :=
  (session_keeps_graph chain_reached chainCommands_possible).1

theorem session_forgets_chain :
    3 ∈ (updatePartitions ((start chain none).session chainCommands).panel).completeEltSet.edges ↔
      chain.isVisible 3 = true ∧ Spared 3 (start chain none) chainCommands :=
  session_forgets chain_reached chainCommands_possible (by decide +kernel)

/-- Both edges are shown, and gone after the next edit. -/
example : ((start chain none).session chainCommands).panel.visibleLocality.edges = [1, 3] ∧
    1 ∉ (updatePartitions ((start chain none).session chainCommands).panel).completeEltSet.edges ∧
    3 ∉ (updatePartitions ((start chain none).session chainCommands).panel).completeEltSet.edges := by
  decide +kernel

end View

end Topo
