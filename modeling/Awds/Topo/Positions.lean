import Awds.Topo.RoundTrip

/-!
# Loading positions: `PositionParser`

| here | there |
| --- | --- |
| `PositionParser.nodeAttributes` | the `while` loop behind an `id`, and what follows it (`PositionParser.java:47-76`) |
| `PositionParser.attributes`     | the loop over the attributes (:40) |
| `PositionParser.startElement`   | `startElement` (:32) |
| `PositionParser.load`           | the constructor (:11) |

No handler throws. `positions_restored`: a saved file brings the nodes back to their places, unless one was fixed
meanwhile, since `fixed="false"` is not read.
-/

namespace Topo

variable {D : Type} [DecidableEq D] (env : Env D)

namespace PositionParser

open InputParser

def nodeAttributes (n : NodeRef) : Attributes → D → D → Viewer D → Viewer D
  | [], x, y, v =>
    if x ≠ env.minValue ∨ y ≠ env.minValue then
      setLocation (if x = env.minValue then env.screen.1 else x) (if y = env.minValue then env.screen.2 else y) n v
    else v
  | (name, value) :: rest, x, y, v =>
    nodeAttributes n rest (if toLowerCase name = "x" then (env.newDouble value).getD x else x)
      (if toLowerCase name = "y" then (env.newDouble value).getD y else y)
      (if toLowerCase name = "fixed" ∧ toLowerCase value = "true" then setFixed n v else v)

def attributes (ntag : String) : Attributes → Viewer D → Viewer D
  | [], v => v
  | (name, value) :: rest, v =>
    if toLowerCase name = "id" then
      match v.panel.completeEltSet.findNode value with
      | none => attributes ntag rest v
      | some n =>
        if isNewNode ntag then nodeAttributes env n rest env.minValue env.minValue v else attributes ntag rest v
    else attributes ntag rest v

def startElement (qName : String) (attrs : Attributes) (v : Viewer D) : Viewer D :=
  attributes env (toLowerCase qName) attrs v

def handle (v : Viewer D) : Xml.Event → Viewer D
  | .startElement name attrs => startElement env name attrs v
  | .endElement _ => v

def parse (events : List Xml.Event) (v : Viewer D) : Viewer D := events.foldl (handle env) v

/-- `new PositionParser(tg_panel, path)` for a file at `path`. -/
def load (sax : String → List Xml.Event) (file : String) (v : Viewer D) : Viewer D := parse env (sax file) v

/-! ## Elements -/

variable {env} {text : D → String} {v w : Viewer D} {n : NodeRef}

/-- An element without an `id` is none of a node. -/
theorem attributes_other (ntag : String) : ∀ attrs : Attributes, (∀ a ∈ attrs, toLowerCase a.1 ≠ "id") →
    ∀ v : Viewer D, attributes env ntag attrs v = v
  | [], _, _ => rfl
  | (name, value) :: rest, h, v => by
    obtain ⟨hname, hrest⟩ := List.forall_mem_cons.1 h
    rw [attributes, if_neg hname]
    exact attributes_other ntag rest hrest v

/-- A tag without an `id`. -/
def Other : Xml.Event → Prop
  | .startElement _ attrs => ∀ a ∈ attrs, toLowerCase a.1 ≠ "id"
  | .endElement _ => True

theorem parse_other (events : List Xml.Event) (h : ∀ ev ∈ events, Other ev) (v : Viewer D) : parse env events v = v := by
  induction events with
  | nil => rfl
  | cons ev events ih =>
    obtain ⟨hev, hrest⟩ := List.forall_mem_cons.1 h
    have hsame : handle env v ev = v := by
      cases ev with
      | startElement name attrs => exact attributes_other _ attrs hev v
      | endElement name => rfl
    show parse env events (handle env v ev) = v
    rw [hsame]
    exact ih hrest

/-- Where the node is that was at `p` when it was saved, and is at `q` now. -/
def moved (env : Env D) (p q : D × D) : D × D :=
  if p.1 ≠ env.minValue ∨ p.2 ≠ env.minValue then
    (if p.1 = env.minValue then env.screen.1 else p.1, if p.2 = env.minValue then env.screen.2 else p.2)
  else q

/-- The nodes `ns` are back where they were in `v`. -/
def returned (env : Env D) (v : Viewer D) (ns : List NodeRef) (w : Viewer D) : Viewer D :=
  { w with
    location := fun n => if n ∈ ns then moved env (v.location n) (w.location n) else w.location n
    fixed := fun n => if n ∈ ns ∧ v.fixed n = true then true else w.fixed n }

theorem startElement_saved (hj : Java env text) {id : String} (hid : (v.panel.node n).id = some id)
    (hfind : w.panel.completeEltSet.findNode id = some n) :
    startElement env "node" (XMLWriter.nodeAttrs text v n) w = returned env v [n] w := by
  have h0 : toLowerCase "node" = "node" := by decide
  have h1 : toLowerCase "id" = "id" := by decide
  have h2 : toLowerCase "name" = "name" := by decide
  have h3 : toLowerCase "x" = "x" := by decide
  have h4 : toLowerCase "y" = "y" := by decide
  have h5 : toLowerCase "fixed" = "fixed" := by decide
  have hread : startElement env "node" (XMLWriter.nodeAttrs text v n) w =
      nodeAttributes env n [] (v.location n).1 (v.location n).2
        (if toLowerCase (toString (v.fixed n)) = "true" then setFixed n w else w) := by
    simp [startElement, XMLWriter.nodeAttrs, hid, XMLWriter.concat, attributes, hfind, h0, h1, h2, h3, h4, h5, isNewNode,
      nodeAttributes, hj.newDouble]
  have hfixed : (if toLowerCase (toString (v.fixed n)) = "true" then setFixed n w else w) =
      { w with fixed := fun m => if m ∈ [n] ∧ v.fixed m = true then true else w.fixed m } := by
    cases hf : v.fixed n with
    | true =>
      rw [if_pos (by decide)]
      refine congrArg (fun g => { w with fixed := g }) (funext fun m => ?_)
      by_cases hm : m = n
      · subst hm; simp [hf]
      · simp [hm]
    | false =>
      rw [if_neg (by decide)]
      refine congrArg (fun g => { w with fixed := g }) (funext fun m => ?_)
      by_cases hm : m = n
      · subst hm; simp [hf]
      · simp [hm]
  have hlocation : Function.update w.location n (moved env (v.location n) (w.location n)) =
      fun m => if m ∈ [n] then moved env (v.location m) (w.location m) else w.location m := by
    funext m
    by_cases hm : m = n
    · subst hm; simp
    · simp [hm]
  rw [hread, hfixed, nodeAttributes, returned, ← hlocation, moved]
  split
  · rfl
  · rw [Function.update_eq_self]

theorem returned_nil (env : Env D) (v w : Viewer D) : returned env v [] w = w := by
  simp [returned]

/-- A node that is put back twice is where it was put first. -/
theorem returned_cons (env : Env D) (v w : Viewer D) (n : NodeRef) (ns : List NodeRef) :
    returned env v ns (returned env v [n] w) = returned env v (n :: ns) w := by
  have hmoved : ∀ p q, moved env p (moved env p q) = moved env p q := fun p q => by
    unfold moved
    split <;> rfl
  have hlocation : ∀ m, (returned env v ns (returned env v [n] w)).location m = (returned env v (n :: ns) w).location m := by
    intro m
    by_cases hn : m = n <;> by_cases hm : m ∈ ns <;> simp [returned, hn, hm, hmoved]
  have hfixed : ∀ m, (returned env v ns (returned env v [n] w)).fixed m = (returned env v (n :: ns) w).fixed m := by
    intro m
    by_cases hn : m = n
    · subst hn
      by_cases hf : v.fixed m = true <;> simp [returned, hf]
    · simp [returned, hn]
  exact congrArg₂ (fun l f => { w with location := l, fixed := f }) (funext hlocation) (funext hfixed)

/-! ## The whole file -/

theorem parse_nodes (hj : Java env text) : ∀ (ns : List NodeRef) (w : Viewer D),
    (∀ n ∈ ns, ∃ id, (v.panel.node n).id = some id ∧ w.panel.completeEltSet.findNode id = some n) →
    parse env (ns.flatMap (XMLWriter.nodeEvents text v)) w = returned env v ns w
  | [], w, _ => (returned_nil env v w).symm
  | n :: ns, w, h => by
    obtain ⟨⟨id, hid, hfind⟩, hns⟩ := List.forall_mem_cons.1 h
    rw [← returned_cons, ← startElement_saved hj hid hfind]
    have hpanel : (startElement env "node" (XMLWriter.nodeAttrs text v n) w).panel = w.panel := by
      rw [startElement_saved hj hid hfind]
      rfl
    rw [← parse_nodes hj ns _ (by rw [hpanel]; exact hns)]
    rfl

omit [DecidableEq D] in
theorem other_opened (v : Viewer D) : ∀ ev ∈ XMLWriter.opened v, Other ev := by
  have hpix : toLowerCase "pix" ≠ "id" := by decide
  simp [XMLWriter.opened, Other, hpix]

omit [DecidableEq D] in
theorem other_edgeEvents (v : Viewer D) (e : EdgeRef) : ∀ ev ∈ XMLWriter.edgeEvents v e, Other ev := by
  have hfrom : toLowerCase "from" ≠ "id" := by decide
  have hto : toLowerCase "to" ≠ "id" := by decide
  have hvalue : toLowerCase "value" ≠ "id" := by decide
  simp only [XMLWriter.edgeEvents, XMLWriter.edgeAttrs, XMLWriter.qualityAttrs, List.forall_mem_cons, Other]
  simp [hfrom, hto, hvalue]

theorem other_closed : ∀ ev ∈ XMLWriter.closed, Other ev := by
  simp [XMLWriter.closed, Other]

theorem parse_saved (hj : Java env text)
    (h : ∀ n ∈ v.panel.completeEltSet.nodes,
      ∃ id, (v.panel.node n).id = some id ∧ w.panel.completeEltSet.findNode id = some n) :
    parse env (XMLWriter.saved text v) w = returned env v v.panel.completeEltSet.nodes w := by
  have hbehind : ∀ ev ∈ v.panel.shown.flatMap (XMLWriter.edgeEvents v) ++ XMLWriter.closed, Other ev := by
    intro ev hev
    rcases List.mem_append.1 hev with hev | hev
    · obtain ⟨e, -, hev⟩ := List.mem_flatMap.1 hev
      exact other_edgeEvents v e ev hev
    · exact other_closed ev hev
  have hparse : parse env (XMLWriter.saved text v) w =
      parse env (v.panel.shown.flatMap (XMLWriter.edgeEvents v) ++ XMLWriter.closed)
        (parse env (v.panel.completeEltSet.nodes.flatMap (XMLWriter.nodeEvents text v))
          (parse env (XMLWriter.opened v) w)) := by
    rw [XMLWriter.saved_eq]
    unfold parse
    rw [List.foldl_append, List.foldl_append]
  rw [hparse, parse_other _ hbehind, parse_other _ (other_opened v), parse_nodes hj _ w h]

/-- `w` is what `v` may have become: its nodes are there, under their IDs. -/
structure Later (env : Env D) (v w : Viewer D) : Prop where
  reach : Lts.Reach (Viewer.edit env) Lts.Any v w
  node : ∀ n ∈ v.panel.completeEltSet.nodes,
    n ∈ w.panel.completeEltSet.nodes ∧ (w.panel.node n).id = (v.panel.node n).id

/-- `w'` is `w` with the nodes of `v` as they were in `v`. -/
structure Restored (v w w' : Viewer D) : Prop where
  saved : ∀ n ∈ v.panel.completeEltSet.nodes, w'.location n = v.location n ∧ w'.fixed n = v.fixed n
  other : ∀ n ∉ v.panel.completeEltSet.nodes, w'.location n = w.location n ∧ w'.fixed n = w.fixed n
  panel : w'.panel = w.panel
  color : w'.color = w.color

/-- The node has not been fixed since it was saved, and the place that was saved does not read as a missing one. -/
def Recoverable (env : Env D) (v w : Viewer D) (n : NodeRef) : Prop :=
  (v.fixed n = false → w.fixed n = false) ∧
    ((v.location n).1 ≠ env.minValue ∧ (v.location n).2 ≠ env.minValue ∨
      (v.location n).1 = env.minValue ∧ (v.location n).2 = env.minValue ∧ w.location n = v.location n)

instance (env : Env D) (v w : Viewer D) (n : NodeRef) : Decidable (Recoverable env v w n) :=
  inferInstanceAs (Decidable ((_ = false → _ = false) ∧ (_ ∨ _)))

theorem moved_eq_iff (hj : Java env text) (p q : D × D) : moved env p q = p ↔
    p.1 ≠ env.minValue ∧ p.2 ≠ env.minValue ∨ p.1 = env.minValue ∧ p.2 = env.minValue ∧ q = p := by
  obtain ⟨x, y⟩ := p
  by_cases hx : x = env.minValue <;> by_cases hy : y = env.minValue
  · simp [moved, hx, hy]
  · simp [moved, hx, hy, hj.screen.1]
  · simp [moved, hx, hy, hj.screen.2]
  · simp [moved, hx, hy]

theorem returned_restored_iff (hj : Java env text) : Restored v w (returned env v v.panel.completeEltSet.nodes w) ↔
    ∀ n ∈ v.panel.completeEltSet.nodes, Recoverable env v w n := by
  have hnode : ∀ n ∈ v.panel.completeEltSet.nodes,
      ((returned env v v.panel.completeEltSet.nodes w).location n = v.location n ∧
        (returned env v v.panel.completeEltSet.nodes w).fixed n = v.fixed n) ↔ Recoverable env v w n := by
    intro n hn
    have hlocation : (returned env v v.panel.completeEltSet.nodes w).location n = moved env (v.location n) (w.location n) :=
      if_pos hn
    have hfixed : (returned env v v.panel.completeEltSet.nodes w).fixed n = if v.fixed n = true then true else w.fixed n := by
      simp [returned, hn]
    rw [hlocation, hfixed, moved_eq_iff hj, Recoverable, and_comm]
    refine and_congr_left fun _ => ?_
    cases v.fixed n <;> simp
  constructor
  · exact fun h n hn => (hnode n hn).1 (h.saved n hn)
  · exact fun h => ⟨fun n hn => (hnode n hn).2 (h n hn), fun n hn => by simp [returned, hn], rfl, rfl⟩

theorem load_saved (hj : Java env text) {sax : String → List Xml.Event} (hs : Xml.Conforms sax)
    (hv : Lts.Reach (Viewer.edit env) Lts.Any (empty env) v) (hplain : XMLWriter.PlainStrings v) (hw : Later env v w) :
    load env sax (XMLWriter.writeXML text v) w = returned env v v.panel.completeEltSet.nodes w := by
  rw [load, hs _ _ (XMLWriter.scan_writeXML hj.plain hplain)]
  refine parse_saved hj fun n hn => ?_
  obtain ⟨id, hid⟩ := (Viewer.reach_edited env hj.range hv).made.registered.id n hn
  obtain ⟨hmem, heq⟩ := hw.node n hn
  exact ⟨id, hid, ((Viewer.reach_edited env hj.range (hv.trans hw.reach)).made.registered.findNode id n).2
    ⟨hmem, heq.trans hid⟩⟩

/-- **The file of a graph of plain strings gives its nodes back their places and `fixed`, whatever was edited since,
and changes nothing else, exactly if no node has been fixed since and no coordinate is `Double.MIN_VALUE`, except
where both are and the node has stayed.** -/
theorem positions_restored (hj : Java env text) {sax : String → List Xml.Event} (hs : Xml.Conforms sax)
    (hv : Lts.Reach (Viewer.edit env) Lts.Any (empty env) v) (hplain : XMLWriter.PlainStrings v) (hw : Later env v w) :
    Restored v w (load env sax (XMLWriter.writeXML text v) w) ↔
      ∀ n ∈ v.panel.completeEltSet.nodes, Recoverable env v w n := by
  rw [load_saved hj hs hv hplain hw]
  exact returned_restored_iff hj

/-- A node is moved and let go, and a new one comes. -/
def movedEdits : List (Edit (Option Int)) :=
  [.setLocation 0 (some 5) none, .setFixed 0 false, .event (.startElement "node" [("id", "3")])]

theorem movedEdits_possible : (Lts.execOk (Viewer.edit whole) Lts.Any qualityViewer movedEdits).isSome = true := by
  decide +kernel

def movedViewer : Viewer (Option Int) :=
  (Lts.execOk (Viewer.edit whole) Lts.Any qualityViewer movedEdits).get movedEdits_possible

theorem positions_restored_moved :
    Restored qualityViewer movedViewer (load whole scanner (XMLWriter.writeXML wholeText qualityViewer) movedViewer) := by
  refine (positions_restored java_whole conforms_scanner (Lts.reach_get qualityEdits qualityEdits_possible) ?_
    ⟨Lts.reach_get movedEdits movedEdits_possible, by decide +kernel⟩).2 (by decide +kernel)
  exact ⟨by decide +kernel, by decide +kernel, by decide +kernel, by decide +kernel⟩

/-- The second node is fixed. -/
def fixedEdits : List (Edit (Option Int)) := [.setFixed 1 true]

theorem fixedEdits_possible : (Lts.execOk (Viewer.edit whole) Lts.Any qualityViewer fixedEdits).isSome = true := by
  decide +kernel

def fixedViewer : Viewer (Option Int) :=
  (Lts.execOk (Viewer.edit whole) Lts.Any qualityViewer fixedEdits).get fixedEdits_possible

/-- The file says that the node is not fixed, and it stays fixed. -/
theorem fixed_stays : ¬∀ v w : Viewer (Option Int), Lts.Reach (Viewer.edit whole) Lts.Any (empty whole) v →
    XMLWriter.PlainStrings v → Later whole v w →
    Restored v w (load whole scanner (XMLWriter.writeXML wholeText v) w) := by
  intro hall
  have hv : Lts.Reach (Viewer.edit whole) Lts.Any (empty whole) qualityViewer :=
    Lts.reach_get qualityEdits qualityEdits_possible
  have hplain : XMLWriter.PlainStrings qualityViewer :=
    ⟨by decide +kernel, by decide +kernel, by decide +kernel, by decide +kernel⟩
  have hw : Later whole qualityViewer fixedViewer :=
    ⟨Lts.reach_get fixedEdits fixedEdits_possible, by decide +kernel⟩
  have hr := hall _ _ hv hplain hw
  rw [load_saved java_whole conforms_scanner hv hplain hw, returned_restored_iff java_whole] at hr
  exact absurd (hr 1 (by decide +kernel)) (by decide +kernel)

end PositionParser

end Topo
