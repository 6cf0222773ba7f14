import Awds.Topo.Counters
import Awds.Topo.Save

/-!
# Loading a saved topology

`parse` runs `InputParser` over the elements of a file. `Loaded` says what has come to the topology: a node element
adds its node, an edge element its edge and the ends it does not find.
-/

namespace Topo

variable {D : Type}

/-- `id` is the ID of a node. -/
def Topology.Names (t : Topology D) (id : Option String) : Prop := ∃ r ∈ t.nodes, r.id = id

/-! ## What is new -/

/-- The topology of `v` with the nodes `ns` and the edges `es` behind it. -/
structure Extends (v v' : Viewer D) (ns : List NodeRef) (es : List EdgeRef) : Prop where
  made : v.panel.nodesMade ≤ v'.panel.nodesMade
  nodes : v'.panel.completeEltSet.nodes = v.panel.completeEltSet.nodes ++ ns
  shown : v'.panel.shown = v.panel.shown ++ es
  name : ∀ n < v.panel.nodesMade,
    (v'.panel.node n).id = (v.panel.node n).id ∧ (v'.panel.node n).lbl = (v.panel.node n).lbl
  place : ∀ n < v.panel.nodesMade, v'.location n = v.location n ∧ v'.fixed n = v.fixed n
  edge : ∀ e ∈ v.panel.shown, v'.panel.edge e = v.panel.edge e
  color : ∀ e ∈ v.panel.shown, v'.color e = v.color e
  pix : v'.pixelForOneMeter = v.pixelForOneMeter

theorem Extends.trans {v w v' : Viewer D} {ns ns' : List NodeRef} {es es' : List EdgeRef} (h : Extends v w ns es)
    (h' : Extends w v' ns' es') : Extends v v' (ns ++ ns') (es ++ es') where
  made := Nat.le_trans h.made h'.made
  nodes := by rw [h'.nodes, h.nodes, List.append_assoc]
  shown := by rw [h'.shown, h.shown, List.append_assoc]
  name n hn := by
    have hw := h'.name n (Nat.lt_of_lt_of_le hn h.made)
    rw [hw.1, hw.2]
    exact h.name n hn
  place n hn := by
    have hw := h'.place n (Nat.lt_of_lt_of_le hn h.made)
    rw [hw.1, hw.2]
    exact h.place n hn
  edge e he := (h'.edge e (h.shown ▸ List.mem_append_left es he)).trans (h.edge e he)
  color e he := (h'.color e (h.shown ▸ List.mem_append_left es he)).trans (h.color e he)
  pix := h'.pix.trans h.pix

theorem Extends.topology {v v' : Viewer D} {ns : List NodeRef} {es : List EdgeRef} (hv : InputParser.Loose v)
    (h : Extends v v' ns es) : v'.topology = ⟨v.topology.nodes ++ ns.map v'.nodeRecord,
      v.topology.edges ++ es.map v'.edgeRecord, v.pixelForOneMeter⟩ := by
  have hnodes : v.panel.completeEltSet.nodes.map v'.nodeRecord = v.panel.completeEltSet.nodes.map v.nodeRecord := by
    refine List.map_congr_left fun n hn => ?_
    have hlt := (hv.shape.nodes n hn).1
    rw [Viewer.nodeRecord, (h.name n hlt).1, (h.name n hlt).2, (h.place n hlt).1, (h.place n hlt).2]
    rfl
  have hedges : v.panel.shown.map v'.edgeRecord = v.panel.shown.map v.edgeRecord := by
    refine List.map_congr_left fun e he => ?_
    have hends := (hv.shape.edges e (St.mem_shown.1 he).1).2
    have hlt : ∀ n, v.panel.touches n e → n < v.panel.nodesMade := fun n ht =>
      (hends n ht).elim (fun hn => (hv.shape.nodes n hn).1) id
    rw [Viewer.edgeRecord, Viewer.fromID, Viewer.toID, h.edge e he, h.color e he, (h.name _ (hlt _ (.inl rfl))).1,
      (h.name _ (hlt _ (.inr rfl))).1]
    rfl
  rw [Viewer.topology, h.nodes, h.shown, h.pix, List.map_append, List.map_append, hnodes, hedges]
  rfl

namespace InputParser

variable {v v' w : Viewer D}

theorem endNodes_extends {out : NodeRef → Prop} {fromID toID : String}
    (h : EndNodes out fromID toID v (endNodes fromID toID v)) : ∃ ns, Extends v (endNodes fromID toID v).2.2 ns [] ∧
      (ns = [] ↔ v.panel.completeEltSet.findNode fromID ≠ none ∧ v.panel.completeEltSet.findNode toID ≠ none) := by
  have hf := endNodes_frame fromID toID v
  obtain ⟨ns, hns, hnil⟩ := h.nodes
  exact ⟨ns, ⟨h.made.1, hns, by rw [h.shown, List.append_nil], h.names,
    fun n _ => ⟨by rw [hf.location], by rw [hf.fixed]⟩, h.edge, fun e _ => by rw [hf.color], hf.pix⟩, hnil⟩

theorem findNode_ne_none (h : Loose v) {id : String} :
    v.panel.completeEltSet.findNode id ≠ none ↔ v.topology.Names (some id) := by
  rw [Option.ne_none_iff_exists']
  constructor
  · rintro ⟨n, hn⟩
    obtain ⟨hmem, hid⟩ := (h.registered.findNode id n).1 hn
    exact ⟨v.nodeRecord n, List.mem_map_of_mem hmem, hid⟩
  · rintro ⟨r, hr, hid⟩
    obtain ⟨n, hn, rfl⟩ := List.mem_map.1 hr
    exact ⟨n, (h.registered.findNode id n).2 ⟨hn, hid⟩⟩

/-! ## Elements -/

section
variable [DecidableEq D] (env : Env D)

def ofSax : Xml.Event → Event
  | .startElement name attrs => .startElement name attrs
  | .endElement name => .endElement name

/-- The handlers are called until one of them throws. -/
def parse (events : List Xml.Event) (v : Viewer D) : Viewer D :=
  events.foldl (fun v ev => (step env v (ofSax ev)).getD v) v

/-- `new InputParser(tg_panel, statusBar, path)` (:28) for a file at `path`. -/
def load (sax : String → List Xml.Event) (file : String) (v : Viewer D) : Viewer D :=
  parse env (sax file) (Viewer.newParser v)

theorem parse_append (events events' : List Xml.Event) (v : Viewer D) :
    parse env (events ++ events') v = parse env events' (parse env events v) := List.foldl_append

theorem parse_cons (h : v.thrown = none) (ev : Xml.Event) (events : List Xml.Event) :
    parse env (ev :: events) v = parse env events (handle env (ofSax ev) v) := by
  simp [parse, step, h]

/-- The conversions of Java. `Double.MIN_VALUE` is neither half a screen nor what `Math.random() * 2 - 1` can be. -/
structure Java (text : D → String) : Prop where
  plain : ∀ x, Xml.Plain (text x)
  newDouble : ∀ x, env.newDouble (text x) = some x
  intValue : ∀ p : Int, 0 ≤ p → p ≤ 100 → (env.newDouble (toString p)).map env.intValue = some p
  newInteger : ∀ i : Int, -2 ^ 31 ≤ i → i < 2 ^ 31 → env.newInteger (toString i) = some i
  range : ∀ s i, env.newInteger s = some i → i < 2 ^ 31
  screen : env.screen.1 ≠ env.minValue ∧ env.screen.2 ≠ env.minValue
  random : ∀ n, (env.random n).1 ≠ env.minValue

/-- The parser goes on, and new nodes are as `Node.initialize` makes them. -/
structure Ready (v : Viewer D) : Prop where
  loose : Loose v
  thrown : v.thrown = none
  unmade : ∀ n, v.panel.nodesMade ≤ n → v.fixed n = false ∧ v.location n = env.random n

/-! ### `node` -/

theorem startElement_node (id : String) (rest : Attributes) (v : Viewer D) :
    startElement env "node" (("id", id) :: rest) v =
      nodeAttributes env (some v.panel.nodesMade) rest env.minValue env.minValue (addNew id v) := by
  have htag : toLowerCase "node" = "node" := by decide
  have hid : toLowerCase "id" = "id" := by decide
  rw [startElement, htag, if_neg (by decide), attributes, if_pos ⟨hid, by decide⟩, nodeElement, if_pos (by decide)]

/-- The node `n` at the place that was read. -/
def placed (n : NodeRef) (x y : D) (v : Viewer D) : Viewer D :=
  if x = env.minValue ∧ y = env.minValue then v
  else setLocation (if x = env.minValue then env.screen.1 else x) (if y = env.minValue then env.screen.2 else y) n v

theorem nodeAttributes_saved (n : NodeRef) (label x y : String) {a b : D} (hx : env.newDouble x = some a)
    (hy : env.newDouble y = some b) (fixed : Bool) (v : Viewer D) :
    nodeAttributes env (some n) [("name", label), ("x", x), ("y", y), ("fixed", toString fixed)] env.minValue env.minValue v =
      placed env n a b (if fixed then setFixed n (setLabel label n v) else setLabel label n v) := by
  have h1 : toLowerCase "name" = "name" := by decide
  have h2 : toLowerCase "x" = "x" := by decide
  have h3 : toLowerCase "y" = "y" := by decide
  have h4 : toLowerCase "fixed" = "fixed" := by decide
  rw [nodeAttributes, if_pos h1, deref, nodeAttributes, if_neg (by rw [h2]; decide), if_pos h2, hx, Option.getD_some,
    nodeAttributes, if_neg (by rw [h3]; decide), if_neg (by rw [h3]; decide), if_pos h3, hy, Option.getD_some,
    nodeAttributes, if_neg (by rw [h4]; decide), if_neg (by rw [h4]; decide), if_neg (by rw [h4]; decide)]
  cases fixed with
  | false => rw [if_neg (by decide)]; rfl
  | true => rw [if_pos ⟨h4, by decide⟩]; rfl

omit [DecidableEq D] in
theorem setLabel_extends {ns : List NodeRef} {es : List EdgeRef} (h : Extends v w ns es) {n : NodeRef}
    (hn : v.panel.nodesMade ≤ n) (label : String) : Extends v (setLabel label n w) ns es where
  made := h.made
  nodes := h.nodes
  shown := h.shown
  name m hm := by
    have hne : m ≠ n := Nat.ne_of_lt (Nat.lt_of_lt_of_le hm hn)
    simpa [InputParser.setLabel, St.setNode, hne] using h.name m hm
  place := h.place
  edge := h.edge
  color := h.color
  pix := h.pix

omit [DecidableEq D] in
theorem setFixed_extends {ns : List NodeRef} {es : List EdgeRef} (h : Extends v w ns es) {n : NodeRef}
    (hn : v.panel.nodesMade ≤ n) : Extends v (setFixed n w) ns es where
  made := h.made
  nodes := h.nodes
  shown := h.shown
  name := h.name
  place m hm := by
    have hne : m ≠ n := Nat.ne_of_lt (Nat.lt_of_lt_of_le hm hn)
    simpa [InputParser.setFixed, hne] using h.place m hm
  edge := h.edge
  color := h.color
  pix := h.pix

theorem placed_extends {ns : List NodeRef} {es : List EdgeRef} (h : Extends v w ns es) {n : NodeRef}
    (hn : v.panel.nodesMade ≤ n) (x y : D) : Extends v (placed env n x y w) ns es := by
  unfold InputParser.placed
  split
  · exact h
  · refine { h with place := fun m hm => ?_ }
    have hne : m ≠ n := Nat.ne_of_lt (Nat.lt_of_lt_of_le hm hn)
    simpa [setLocation, hne] using h.place m hm

/-- Where a node that was at `p` is now: `Double.MIN_VALUE` stands for a missing coordinate (:121). -/
def relocated (n : NodeRef) (p : D × D) : D × D :=
  if p.1 = env.minValue ∧ p.2 = env.minValue then env.random n
  else (if p.1 = env.minValue then env.screen.1 else p.1, if p.2 = env.minValue then env.screen.2 else p.2)

theorem placed_location {n : NodeRef} (h : v.location n = env.random n) (p : D × D) :
    (placed env n p.1 p.2 v).location n = relocated env n p := by
  unfold placed relocated
  split
  · exact h
  · exact Function.update_self ..

variable {env} {text : D → String}

theorem relocated_eq_iff (hj : Java env text) (n : NodeRef) (p : D × D) :
    relocated env n p = p ↔ p.1 ≠ env.minValue ∧ p.2 ≠ env.minValue := by
  unfold relocated
  split
  · rename_i hp
    exact iff_of_false (fun heq => hj.random n (heq ▸ hp.1)) fun hne => hne.1 hp.1
  · by_cases hx : p.1 = env.minValue
    · rw [if_pos hx]
      exact iff_of_false (fun heq => hj.screen.1 ((congrArg Prod.fst heq).trans hx)) fun hne => hne.1 hx
    · rw [if_neg hx]
      by_cases hy : p.2 = env.minValue
      · rw [if_pos hy]
        exact iff_of_false (fun heq => hj.screen.2 ((congrArg Prod.snd heq).trans hy)) fun hne => hne.2 hy
      · rw [if_neg hy]
        exact iff_of_true rfl ⟨hx, hy⟩

omit [DecidableEq D] in
theorem Ready.of_extends {ns : List NodeRef} {es : List EdgeRef} (h : Ready env v) (he : Extends v w ns es)
    (hl : Loose w) (ht : w.thrown = none) (hlocation : w.location = v.location) (hfixed : w.fixed = v.fixed) :
    Ready env w := by
  refine ⟨hl, ht, fun n hn => ?_⟩
  rw [hlocation, hfixed]
  exact h.unmade n (Nat.le_trans he.made hn)

omit [DecidableEq D] in
theorem addNew_extends (h : Ready env v) {id : String} (hfree : v.panel.completeEltSet.findNode id = none) :
    Extends v (addNew id v) [v.panel.nodesMade] [] ∧ Ready env (addNew id v) := by
  have hn := addNew_spec h.loose (fun _ hlt => hlt) id
  have hf := addNew_frame id v
  have hle : v.panel.nodesMade ≤ (addNew id v).panel.nodesMade := by
    rw [hn.made]
    exact Nat.le_succ _
  have he : Extends v (addNew id v) [v.panel.nodesMade] [] := ⟨hle, hn.added hfree, by rw [hn.shown, List.append_nil],
    fun n hlt => hn.names n (Nat.ne_of_lt hlt), fun n _ => ⟨by rw [hf.location], by rw [hf.fixed]⟩, hn.edge,
    fun e _ => by rw [hf.color], hf.pix⟩
  exact ⟨he, h.of_extends he (hn.kept.mono fun n hlt => Nat.lt_of_lt_of_le hlt hle) (hf.thrown.trans h.thrown) hf.location
    hf.fixed⟩

theorem placed_ready (h : Ready env v) {n : NodeRef} (hn : n < v.panel.nodesMade) (x y : D) :
    Ready env (placed env n x y v) := by
  unfold placed
  split
  · exact h
  · refine ⟨h.loose, h.thrown, fun m hm => ?_⟩
    have hne : m ≠ n := Nat.ne_of_gt (Nat.lt_of_lt_of_le hn hm)
    simpa [setLocation, hne] using h.unmade m hm

omit [DecidableEq D] in
theorem setFixed_ready (h : Ready env v) {n : NodeRef} (hn : n < v.panel.nodesMade) : Ready env (setFixed n v) := by
  refine ⟨h.loose, h.thrown, fun m hm => ?_⟩
  have hne : m ≠ n := Nat.ne_of_gt (Nat.lt_of_lt_of_le hn hm)
  simpa [setFixed, hne] using h.unmade m hm

omit [DecidableEq D] in
theorem setLabel_ready (h : Ready env v) (n : NodeRef) (label : String) : Ready env (setLabel label n v) :=
  ⟨setLabel_kept h.loose label n, h.thrown, h.unmade⟩

/-- The node `n` with what its element says but the place. -/
def described (n : NodeRef) (label : String) (fixed : Bool) (v : Viewer D) : Viewer D :=
  if fixed then setFixed n (setLabel label n v) else setLabel label n v

omit [DecidableEq D] in
theorem described_extends {ns : List NodeRef} {es : List EdgeRef} (h : Extends v w ns es) {n : NodeRef}
    (hn : v.panel.nodesMade ≤ n) (label : String) (fixed : Bool) : Extends v (described n label fixed w) ns es := by
  cases fixed with
  | false => exact setLabel_extends h hn label
  | true => exact setFixed_extends (setLabel_extends h hn label) hn

omit [DecidableEq D] in
theorem described_ready (h : Ready env v) {n : NodeRef} (hn : n < v.panel.nodesMade) (label : String) (fixed : Bool) :
    Ready env (described n label fixed v) := by
  cases fixed with
  | false => exact setLabel_ready h n label
  | true => exact setFixed_ready (setLabel_ready h n label) hn

omit [DecidableEq D] in
theorem described_frame (n : NodeRef) (label : String) (fixed : Bool) (v : Viewer D) :
    (described n label fixed v).panel = (setLabel label n v).panel ∧
      (described n label fixed v).location = v.location ∧
      (v.fixed n = false → (described n label fixed v).fixed n = fixed) := by
  cases fixed with
  | false => exact ⟨rfl, rfl, id⟩
  | true => exact ⟨rfl, rfl, fun _ => Function.update_self ..⟩

theorem placed_frame (env : Env D) (n : NodeRef) (x y : D) (v : Viewer D) :
    (placed env n x y v).panel = v.panel ∧ (placed env n x y v).fixed = v.fixed := by
  unfold placed
  split <;> exact ⟨rfl, rfl⟩

/-- The elements of a node that is not there yet bring it to the end of the nodes. -/
theorem parse_node (hj : Java env text) (h : Ready env w) {n : NodeRef} {id lbl : String} (hid : (v.panel.node n).id = some id)
    (hlbl : (v.panel.node n).lbl = some lbl) (hfree : w.panel.completeEltSet.findNode id = none) :
    Ready env (parse env (XMLWriter.nodeEvents text v n) w) ∧
      (parse env (XMLWriter.nodeEvents text v n) w).topology =
        ⟨w.topology.nodes ++ [⟨some id, some lbl, relocated env w.panel.nodesMade (v.location n), v.fixed n⟩],
          w.topology.edges, w.topology.pix⟩ := by
  obtain ⟨he, hr⟩ := addNew_extends h hfree
  have hn := addNew_spec h.loose (fun _ hlt => hlt) id
  have hlt : w.panel.nodesMade < (addNew id w).panel.nodesMade := by
    rw [hn.made]; exact Nat.lt_succ_self _
  obtain ⟨hfixed, hlocation⟩ := h.unmade w.panel.nodesMade (Nat.le_refl _)
  have hf := addNew_frame id w
  obtain ⟨hdp, hdl, hdf⟩ := described_frame w.panel.nodesMade lbl (v.fixed n) (addNew id w)
  have hr' := placed_ready (described_ready hr hlt lbl (v.fixed n)) (by rw [hdp]; exact hlt) (v.location n).1 (v.location n).2
  have he' := placed_extends env (described_extends he (Nat.le_refl _) lbl (v.fixed n)) (Nat.le_refl _) (v.location n).1
    (v.location n).2
  obtain ⟨hpp, hpf⟩ := placed_frame env w.panel.nodesMade (v.location n).1 (v.location n).2
    (described w.panel.nodesMade lbl (v.fixed n) (addNew id w))
  have hparse : parse env (XMLWriter.nodeEvents text v n) w = placed env w.panel.nodesMade (v.location n).1 (v.location n).2
      (described w.panel.nodesMade lbl (v.fixed n) (addNew id w)) := by
    have hstart : handle env (ofSax (.startElement "node" (XMLWriter.nodeAttrs text v n))) w =
        placed env w.panel.nodesMade (v.location n).1 (v.location n).2
          (described w.panel.nodesMade lbl (v.fixed n) (addNew id w)) := by
      simp only [handle, ofSax, XMLWriter.nodeAttrs, hid, hlbl, XMLWriter.concat, Option.getD_some]
      rw [startElement_node, nodeAttributes_saved env _ _ _ _ (hj.newDouble _) (hj.newDouble _)]
      rfl
    rw [XMLWriter.nodeEvents, parse_cons env h.thrown, hstart, parse_cons env hr'.thrown]
    rfl
  rw [hparse]
  refine ⟨hr', ?_⟩
  have hrecord : (placed env w.panel.nodesMade (v.location n).1 (v.location n).2
      (described w.panel.nodesMade lbl (v.fixed n) (addNew id w))).nodeRecord w.panel.nodesMade =
        ⟨some id, some lbl, relocated env w.panel.nodesMade (v.location n), v.fixed n⟩ := by
    have hloc := placed_location env (v := described w.panel.nodesMade lbl (v.fixed n) (addNew id w))
      (n := w.panel.nodesMade) (by rw [hdl, hf.location, hlocation]) (v.location n)
    have hlabel : ((setLabel lbl w.panel.nodesMade (addNew id w)).panel.node w.panel.nodesMade).lbl = some lbl := by
      simp [setLabel, St.setNode]
    rw [Viewer.nodeRecord, hloc, hpf, hdf (by rw [hf.fixed, hfixed]), hpp, hdp, hlabel,
      (setLabel_node lbl w.panel.nodesMade w.panel.nodesMade (addNew id w)).1, hn.name]
  rw [he'.topology h.loose, List.map_singleton, hrecord, List.map_nil, List.append_nil]
  rfl

/-- No coordinate of the node is the sentinel. -/
def Located (env : Env D) (v : Viewer D) (n : NodeRef) : Prop :=
  (v.location n).1 ≠ env.minValue ∧ (v.location n).2 ≠ env.minValue

/-- The elements of nodes with IDs of their own. -/
theorem parse_nodes (hj : Java env text) : ∀ (ns : List NodeRef) (w : Viewer D), Ready env w →
    (∀ n ∈ ns, (∃ id, (v.panel.node n).id = some id) ∧ (∃ lbl, (v.panel.node n).lbl = some lbl) ∧
      ¬w.topology.Names (v.panel.node n).id) → (ns.map fun n => (v.panel.node n).id).Nodup →
    Ready env (parse env (ns.flatMap (XMLWriter.nodeEvents text v)) w) ∧
      ∃ rs : List (NodeRecord D), (parse env (ns.flatMap (XMLWriter.nodeEvents text v)) w).topology =
          ⟨w.topology.nodes ++ rs, w.topology.edges, w.topology.pix⟩ ∧
        rs.map NodeRecord.id = ns.map (fun n => (v.panel.node n).id) ∧
        (rs = ns.map v.nodeRecord ↔ ∀ n ∈ ns, Located env v n)
  | [], w, h, _, _ => ⟨h, [], by rw [List.append_nil]; rfl, rfl, by simp⟩
  | n :: ns, w, h, hns, hnd => by
    obtain ⟨⟨⟨id, hid⟩, ⟨lbl, hlbl⟩, hfree⟩, hns⟩ := List.forall_mem_cons.1 hns
    obtain ⟨hne, hnd⟩ := List.nodup_cons.1 hnd
    rw [hid, ← findNode_ne_none h.loose, not_not] at hfree
    obtain ⟨hr, ht⟩ := parse_node hj h hid hlbl hfree
    have hns' : ∀ m ∈ ns, (∃ id, (v.panel.node m).id = some id) ∧ (∃ lbl, (v.panel.node m).lbl = some lbl) ∧
        ¬(parse env (XMLWriter.nodeEvents text v n) w).topology.Names (v.panel.node m).id := by
      intro m hm
      obtain ⟨hid', hlbl', hfree'⟩ := hns m hm
      refine ⟨hid', hlbl', ?_⟩
      rw [ht]
      rintro ⟨r, hr, hrid⟩
      rcases List.mem_append.1 hr with hr | hr
      · exact hfree' ⟨r, hr, hrid⟩
      · rw [List.mem_singleton.1 hr] at hrid
        exact hne (List.mem_map.2 ⟨m, hm, hrid.symm.trans hid.symm⟩)
    obtain ⟨hr', rs, ht', hids, hiff⟩ := parse_nodes hj ns _ hr hns' hnd
    rw [List.flatMap_cons, parse_append]
    refine ⟨hr', ⟨some id, some lbl, relocated env w.panel.nodesMade (v.location n), v.fixed n⟩ :: rs, ?_, ?_, ?_⟩
    · rw [ht', ht, List.append_assoc]
      rfl
    · rw [List.map_cons, List.map_cons, hids, hid]
    · rw [List.map_cons, List.cons_eq_cons, hiff, List.forall_mem_cons, Viewer.nodeRecord, hid, hlbl,
        NodeRecord.mk.injEq]
      simp only [true_and, and_true]
      rw [relocated_eq_iff hj]
      rfl

/-! ### `edge` -/

theorem startElement_edge (h : v.thrown = none) (fromID toID : String) :
    startElement env "edge" [("from", fromID), ("to", toID)] v =
      addConnect (connectNew (endNodes fromID toID v).1 (endNodes fromID toID v).2.1 (endNodes fromID toID v).2.2) := by
  have htag : toLowerCase "edge" = "edge" := by decide
  have h1 : toLowerCase "from" = "from" := by decide
  have h2 : toLowerCase "to" = "to" := by decide
  have hfrom : attributeBranch env "edge" none "from" fromID v = v := by
    simp [attributeBranch, h1]
  have hto : attributeBranch env "edge" (some fromID) "to" toID v = addConnect
      (connectNew (endNodes fromID toID v).1 (endNodes fromID toID v).2.1 (endNodes fromID toID v).2.2) := by
    rw [attributeBranch, if_neg (by rw [h2]; decide), if_pos h2]
    rfl
  rw [startElement, htag, if_neg (by decide), attributes, if_neg (by rw [h1]; decide), hfrom]
  dsimp only
  rw [h, if_neg (by decide), attributes, if_neg (by rw [h2]; decide), hto]
  dsimp only
  split <;> rfl

theorem startElement_quality (env : Env D) (value : String) (v : Viewer D) :
    startElement env "quality" [("value", value)] v = quality env value v := by
  have htag : toLowerCase "quality" = "quality" := by decide
  have h1 : toLowerCase "value" = "value" := by decide
  have hvalue : attributeBranch env "quality" none "value" value v = quality env value v := by
    simp [attributeBranch, h1]
  rw [startElement, htag, if_neg (by decide), attributes, if_neg (by rw [h1]; decide), hvalue]
  dsimp only
  split <;> rfl

/-- The edge `e` with its quality; `connect` is forgotten. -/
def colored (e : EdgeRef) (c : Color) (v : Viewer D) : Viewer D :=
  { v with color := Function.update v.color e c, connect := none }

omit [DecidableEq D] in
theorem quality_saved (hj : Java env text) {p : Int} (h0 : 0 ≤ p) (hp : p ≤ 100) {e : EdgeRef} (he : v.connect = some e) :
    quality env (toString p ++ "%") v = { v with color := Function.update v.color e (qualityColor p) } := by
  have hdigits : ∀ c ∈ (toString p).toList, decide (c ≠ '%') = true := by
    intro c hc
    rw [Int.toString_eq_repr, Int.repr_eq_if, if_pos h0, Nat.toList_repr] at hc
    have hdigit := Nat.isDigit_of_mem_toDigits (by decide) (by decide) hc
    rw [decide_eq_true_eq]
    rintro rfl
    exact absurd hdigit (by decide)
  have hnumber : String.ofList ((toString p ++ "%").toList.takeWhile (· ≠ '%')) = toString p := by
    have hpercent : "%".toList = ['%'] := by decide
    rw [String.toList_append, List.takeWhile_append_of_pos hdigits, hpercent, List.takeWhile_cons_of_neg (by decide),
      List.append_nil, String.ofList_toList]
  have hin : '%' ∈ (toString p ++ "%").toList := by
    rw [String.toList_append]
    exact List.mem_append_right _ (by decide)
  rw [quality, he]
  dsimp only
  rw [if_pos hin, hnumber, hj.intValue p h0 hp, Option.getD_some]

omit [DecidableEq D] in
/-- A new edge between two nodes that were made. -/
theorem connectNew_extends (h : Loose v) {f t : NodeRef} (hf : f < v.panel.nodesMade) (ht : t < v.panel.nodesMade) :
    Loose (addConnect (connectNew f t v)) ∧ Extends v (addConnect (connectNew f t v)) [] [v.panel.edgesMade] ∧
      (addConnect (connectNew f t v)).panel.edge v.panel.edgesMade = ⟨f, t, true⟩ := by
  have heq : (addConnect (connectNew f t v)).panel = TGPanel.updatePartitions
      (VisibleLocality.addEdge v.panel.edgesMade (newEdge f t true v.panel)) := rfl
  have hnew := Kept.addNew_eq h f t true
  have hr := (Kept.addNew h true ⟨hf, .inr hf⟩ ⟨ht, .inr ht⟩).redraw
  have hmade : (addConnect (connectNew f t v)).panel.nodesMade = v.panel.nodesMade := by
    rw [heq, hr.nodesMade, hnew.nodesMade]
  have hold : ∀ e ∈ v.panel.shown, e ≠ v.panel.edgesMade := fun e he =>
    Nat.ne_of_lt (h.shape.edges e (St.mem_shown.1 he).1).1
  have hshown : (VisibleLocality.addEdge v.panel.edgesMade (newEdge f t true v.panel)).shown =
      v.panel.shown ++ [v.panel.edgesMade] := hnew.shown
  refine ⟨?_, ⟨Nat.le_of_eq hmade.symm, ?_, ?_, fun n _ => ?_, fun _ _ => ⟨rfl, rfl⟩, fun e he => ?_, fun e he => ?_, rfl⟩, ?_⟩
  · rw [Loose, hmade]
    exact hr.kept
  · rw [heq, hr.nodes, hnew.nodes, List.append_nil]
  · rw [heq, hr.shown, hshown]
  · rw [heq, (hr.id n).1, (hr.id n).2]
    exact hnew.id n
  · rw [heq, hr.edge e (by rw [hshown]; exact List.mem_append_left _ he), hnew.edge, if_neg (hold e he)]
  · exact Function.update_of_ne (hold e he) ..
  · rw [heq, hr.edge _ (by rw [hshown]; exact List.mem_append_right _ (List.mem_singleton_self _)), hnew.edge, if_pos rfl]

/-- The node of one end, the node of the other, and the new edge between them. -/
def joined (fromID toID : String) (v : Viewer D) : Viewer D :=
  addConnect (connectNew (endNodes fromID toID v).1 (endNodes fromID toID v).2.1 (endNodes fromID toID v).2.2)

theorem parse_edgeEvents (hj : Java env text) (h : w.thrown = none) {e : EdgeRef} (h0 : 0 ≤ XMLWriter.value (v.color e).blue)
    (hp : XMLWriter.value (v.color e).blue ≤ 100) : parse env (XMLWriter.edgeEvents v e) w =
      colored (endNodes (XMLWriter.concat (v.fromID e)) (XMLWriter.concat (v.toID e)) w).2.2.panel.edgesMade
        (qualityColor (XMLWriter.value (v.color e).blue))
        (joined (XMLWriter.concat (v.fromID e)) (XMLWriter.concat (v.toID e)) w) := by
  have hedge : handle env (ofSax (.startElement "edge" (XMLWriter.edgeAttrs v e))) w =
      joined (XMLWriter.concat (v.fromID e)) (XMLWriter.concat (v.toID e)) w := startElement_edge h _ _
  have ht : (joined (XMLWriter.concat (v.fromID e)) (XMLWriter.concat (v.toID e)) w).thrown = none :=
    (endNodes_frame _ _ w).thrown.trans h
  have hquality := (startElement_quality env (toString (XMLWriter.value (v.color e).blue) ++ "%")
    (joined (XMLWriter.concat (v.fromID e)) (XMLWriter.concat (v.toID e)) w)).trans (quality_saved hj h0 hp rfl)
  rw [XMLWriter.edgeEvents, parse_cons env h, hedge, parse_cons env ht]
  simp only [handle, ofSax, XMLWriter.qualityAttrs]
  rw [hquality, parse_cons env (by exact ht)]
  exact parse_cons env (by exact ht) _ _

omit [DecidableEq D] in
theorem joined_extends (h : Ready env w) (fromID toID : String) (c : Color) :
    Ready env (colored (endNodes fromID toID w).2.2.panel.edgesMade c (joined fromID toID w)) ∧
      ∃ ns, Extends w (colored (endNodes fromID toID w).2.2.panel.edgesMade c (joined fromID toID w)) ns
          [(endNodes fromID toID w).2.2.panel.edgesMade] ∧
        (ns = [] ↔ w.topology.Names (some fromID) ∧ w.topology.Names (some toID)) ∧
        (colored (endNodes fromID toID w).2.2.panel.edgesMade c (joined fromID toID w)).edgeRecord
          (endNodes fromID toID w).2.2.panel.edgesMade = ⟨some fromID, some toID, c⟩ := by
  have hn := endNodes_spec h.loose (fun _ hlt => hlt) fromID toID
  have hf := endNodes_frame fromID toID w
  obtain ⟨ns, he, hnil⟩ := endNodes_extends hn
  rw [findNode_ne_none h.loose, findNode_ne_none h.loose] at hnil
  unfold joined
  generalize endNodes fromID toID w = r at hn hf he
  obtain ⟨f, t, u⟩ := r
  dsimp only at hn hf he ⊢
  have hu : Loose u := hn.kept.mono fun n hlt => Nat.lt_of_lt_of_le hlt hn.made.1
  obtain ⟨hl, hc, hedge⟩ := connectNew_extends hu hn.made.2.1 hn.made.2.2
  have hall : Extends w (addConnect (connectNew f t u)) ns [u.panel.edgesMade] := by
    simpa only [List.append_nil, List.nil_append] using he.trans hc
  have hready := h.of_extends hall hl (hf.thrown.trans h.thrown) hf.location hf.fixed
  refine ⟨⟨hl, hready.thrown, hready.unmade⟩, ns, { hall with color := fun k hk => ?_ }, hnil, ?_⟩
  · -- the edge is new
    have hne : k ≠ u.panel.edgesMade := by
      rintro rfl
      have hmem := List.mem_append_left [] hk
      rw [← he.shown] at hmem
      exact Nat.lt_irrefl _ (hu.shape.edges _ (St.mem_shown.1 hmem).1).1
    exact (Function.update_of_ne hne ..).trans (hall.color k hk)
  · have hfrom : ((addConnect (connectNew f t u)).panel.node f).id = some fromID :=
      (hc.name f hn.made.2.1).1.trans hn.fromName
    have hto : ((addConnect (connectNew f t u)).panel.node t).id = some toID := (hc.name t hn.made.2.2).1.trans hn.toName
    simp only [colored, Viewer.edgeRecord, Viewer.fromID, Viewer.toID, hedge, hfrom, hto, Function.update_self]

/-- The record that is read of the visible edge `e`. -/
def reread (v : Viewer D) (e : EdgeRef) : EdgeRecord :=
  ⟨some (XMLWriter.concat (v.fromID e)), some (XMLWriter.concat (v.toID e)), qualityColor (XMLWriter.value (v.color e).blue)⟩

/-- The elements of an edge bring it to the end of the edges, and the ends that are missing to the nodes. -/
theorem parse_edge (hj : Java env text) (h : Ready env w) {e : EdgeRef} (h0 : 0 ≤ XMLWriter.value (v.color e).blue)
    (hp : XMLWriter.value (v.color e).blue ≤ 100) : Ready env (parse env (XMLWriter.edgeEvents v e) w) ∧
      ∃ new, (parse env (XMLWriter.edgeEvents v e) w).topology =
          ⟨w.topology.nodes ++ new, w.topology.edges ++ [reread v e], w.topology.pix⟩ ∧
        (new = [] ↔ w.topology.Names (reread v e).fromID ∧ w.topology.Names (reread v e).toID) := by
  obtain ⟨hr, ns, he, hnil, hrecord⟩ := joined_extends h (XMLWriter.concat (v.fromID e)) (XMLWriter.concat (v.toID e))
    (qualityColor (XMLWriter.value (v.color e).blue))
  rw [← parse_edgeEvents hj h.thrown h0 hp] at hr he hrecord
  refine ⟨hr, ns.map (parse env (XMLWriter.edgeEvents v e) w).nodeRecord, ?_, ?_⟩
  · rw [he.topology h.loose, List.map_singleton, hrecord]
    rfl
  · rw [List.map_eq_nil_iff, hnil]
    rfl

/-- The elements of edges. Ends that are missing are never found again. -/
theorem parse_edges (hj : Java env text) : ∀ (es : List EdgeRef) (w : Viewer D), Ready env w →
    (∀ e ∈ es, 0 ≤ XMLWriter.value (v.color e).blue ∧ XMLWriter.value (v.color e).blue ≤ 100) →
    Ready env (parse env (es.flatMap (XMLWriter.edgeEvents v)) w) ∧
      ∃ new, (parse env (es.flatMap (XMLWriter.edgeEvents v)) w).topology =
          ⟨w.topology.nodes ++ new, w.topology.edges ++ es.map (reread v), w.topology.pix⟩ ∧
        (new = [] ↔ ∀ e ∈ es, w.topology.Names (reread v e).fromID ∧ w.topology.Names (reread v e).toID)
  | [], w, h, _ => ⟨h, [], by rw [List.append_nil, List.map_nil, List.append_nil]; rfl, by simp⟩
  | e :: es, w, h, hes => by
    obtain ⟨⟨h0, hp⟩, hes⟩ := List.forall_mem_cons.1 hes
    obtain ⟨hr, new, ht, hnil⟩ := parse_edge hj h h0 hp
    obtain ⟨hr', new', ht', hnil'⟩ := parse_edges hj es _ hr hes
    rw [List.flatMap_cons, parse_append]
    refine ⟨hr', new ++ new', ?_, ?_⟩
    · rw [ht', ht, List.map_cons, List.append_assoc, List.append_assoc]
      rfl
    · rw [List.append_eq_nil_iff, List.forall_mem_cons, ← hnil]
      refine and_congr_right fun hnew => ?_
      rw [hnil', ht, hnew, List.append_nil]
      rfl

end

end InputParser

end Topo
