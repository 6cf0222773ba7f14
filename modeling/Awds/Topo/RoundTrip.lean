import Awds.Topo.Load

/-!
# Saving and loading

`Faithful` is what a graph of plain strings must have to be the same after `writeXML` and `InputParser`.
-/

namespace Topo

variable {D : Type}

theorem Made.loose_clearAll {s : St} (h : Made s) :
    Kept (fun n => n < (TGPanel.clearAll s).nodesMade) (TGPanel.clearAll s) := by
  have hc := h.clearAll
  refine ⟨⟨by rintro n ⟨⟩, ⟨.nil, .nil⟩, by rintro e ⟨⟩, .nil, by rintro n ⟨⟩, fun n e he => ?_⟩, rfl, hc.registered⟩
  obtain ⟨hlt, ht⟩ := hc.sound.ends n e he
  exact ⟨hlt, hc.touches_lt hlt ht, ht⟩

theorem Topology.names_iff {t : Topology D} {id : Option String} : t.Names id ↔ id ∈ t.nodes.map NodeRecord.id :=
  List.mem_map.symm

namespace InputParser

section
variable [DecidableEq D] {env : Env D} {text : D → String} {v w : Viewer D}

/-! ## From one tag to the other -/

theorem startElement_graph (v : Viewer D) : startElement env "graph" [] v = v := by
  have htag : toLowerCase "graph" = "graph" := by decide
  rw [startElement, htag, if_neg (by decide), attributes]

/-- `topology` empties the panel, whatever was edited there. -/
theorem startElement_topology (h : Edited env w) : Ready env (startElement env "topology" [] (Viewer.newParser w)) ∧
    (startElement env "topology" [] (Viewer.newParser w)).topology = ⟨[], [], w.pixelForOneMeter⟩ := by
  have htag : toLowerCase "topology" = "topology" := by decide
  rw [startElement, if_pos htag]
  exact ⟨⟨h.made.loose_clearAll, rfl, h.unmade⟩, rfl⟩

theorem startElement_metric (value : String) (v : Viewer D) :
    startElement env "metric" [("pix", value)] v = metric env value v := by
  have htag : toLowerCase "metric" = "metric" := by decide
  have h1 : toLowerCase "pix" = "pix" := by decide
  have hpix : attributeBranch env "metric" none "pix" value v = metric env value v := by
    simp [attributeBranch, h1]
  rw [startElement, htag, if_neg (by decide), attributes, if_neg (by rw [h1]; decide), hpix]
  dsimp only
  split <;> rfl

instance (t : Topology D) (id : Option String) : Decidable (t.Names id) :=
  inferInstanceAs (Decidable (∃ r ∈ t.nodes, r.id = id))

instance (env : Env D) (v : Viewer D) (n : NodeRef) : Decidable (Located env v n) :=
  inferInstanceAs (Decidable (_ ∧ _))

/-! ## Colours -/

/-- The percentage of a quality is read off its blue. -/
theorem value_blue (p : Int) : XMLWriter.value (qualityColor p).blue = min (max p 1) 100 := by
  simp only [XMLWriter.value, qualityColor]
  omega

theorem qualityColor_clamp (p : Int) : qualityColor (min (max p 1) 100) = qualityColor p := by
  have hclamp : min (max (min (max p 1) 100) 1) 100 = min (max p 1) 100 := by omega
  rw [qualityColor, hclamp]
  rfl

theorem value_range {c : Color} (h : Drawn c) : 0 ≤ XMLWriter.value c.blue ∧ XMLWriter.value c.blue ≤ 100 := by
  rcases h with rfl | ⟨p, rfl⟩
  · decide
  · rw [value_blue]
    omega

/-- The default colour is the one that is lost. -/
theorem color_saved {c : Color} (h : Drawn c) : qualityColor (XMLWriter.value c.blue) = c ↔ c ≠ defaultColor := by
  rcases h with rfl | ⟨p, rfl⟩
  · decide
  · rw [value_blue, qualityColor_clamp]
    refine iff_of_true rfl fun heq => ?_
    have hred : (qualityColor p).red = (qualityColor p).green := rfl
    rw [heq] at hred
    exact absurd hred (by decide)

/-! ## The whole file -/

/-- The panel is empty at the first node. -/
theorem parse_opened (hj : Java env text) (hv : Edited env v) (hw : Edited env w) :
    Ready env (parse env (XMLWriter.opened v) (Viewer.newParser w)) ∧
      (parse env (XMLWriter.opened v) (Viewer.newParser w)).topology = ⟨[], [], max v.pixelForOneMeter 1⟩ := by
  obtain ⟨hr, ht⟩ := startElement_topology hw
  have hgraph : handle env (ofSax (.startElement "graph" [])) (Viewer.newParser w) = Viewer.newParser w :=
    startElement_graph _
  have htopology : handle env (ofSax (.startElement "topology" [])) (Viewer.newParser w) =
      startElement env "topology" [] (Viewer.newParser w) := rfl
  generalize startElement env "topology" [] (Viewer.newParser w) = w1 at hr ht htopology
  have hmetric : handle env (ofSax (.startElement "metric" [("pix", toString v.pixelForOneMeter)])) w1 =
      { w1 with pixelForOneMeter := max v.pixelForOneMeter 1 } := by
    refine (startElement_metric _ _).trans ?_
    rw [metric, hj.newInteger _ hv.pix.1 hv.pix.2, Option.getD_some]
  have hopened : parse env (XMLWriter.opened v) (Viewer.newParser w) =
      { w1 with pixelForOneMeter := max v.pixelForOneMeter 1 } := by
    rw [XMLWriter.opened, parse_cons env rfl, hgraph, parse_cons env rfl, htopology, parse_cons env hr.thrown, hmetric]
    have hthrown : ({ w1 with pixelForOneMeter := max v.pixelForOneMeter 1 } : Viewer D).thrown = none := hr.thrown
    exact parse_cons env hthrown _ _
  rw [hopened]
  refine ⟨⟨hr.loose, hr.thrown, hr.unmade⟩, ?_⟩
  rw [Viewer.topology, Topology.mk.injEq] at ht
  rw [Viewer.topology, Topology.mk.injEq]
  exact ⟨ht.1, ht.2.1, rfl⟩

theorem parse_closed {u : Viewer D} (hu : u.thrown = none) : parse env XMLWriter.closed u = u := by
  rw [XMLWriter.closed, parse_cons env hu]
  exact parse_cons env hu _ _

theorem parse_saved (hj : Java env text) (hv : Edited env v) (hw : Edited env w) :
    ∃ rs new, (parse env (XMLWriter.saved text v) (Viewer.newParser w)).topology =
        ⟨rs ++ new, v.panel.shown.map (reread v), max v.pixelForOneMeter 1⟩ ∧
      rs.length = v.panel.completeEltSet.nodes.length ∧
      (rs = v.panel.completeEltSet.nodes.map v.nodeRecord ↔ ∀ n ∈ v.panel.completeEltSet.nodes, Located env v n) ∧
      (new = [] ↔ ∀ e ∈ v.panel.shown,
        v.topology.Names (reread v e).fromID ∧ v.topology.Names (reread v e).toID) := by
  obtain ⟨hr, ht⟩ := parse_opened hj hv hw
  have hids : ∀ n ∈ v.panel.completeEltSet.nodes, (∃ id, (v.panel.node n).id = some id) ∧
      (∃ lbl, (v.panel.node n).lbl = some lbl) ∧
        ¬(parse env (XMLWriter.opened v) (Viewer.newParser w)).topology.Names (v.panel.node n).id := by
    intro n hn
    refine ⟨hv.made.registered.id n hn, hv.made.label_some hn, ?_⟩
    rw [ht]
    rintro ⟨r, ⟨⟩, -⟩
  have hnd : (v.panel.completeEltSet.nodes.map fun n => (v.panel.node n).id).Nodup := by
    refine (List.nodup_map_iff_inj_on hv.made.sound.nodup.2.2).2 fun n hn m hm heq => ?_
    obtain ⟨id, hid⟩ := hv.made.registered.id n hn
    have hfn := (hv.made.registered.findNode id n).2 ⟨hn, hid⟩
    have hfm := (hv.made.registered.findNode id m).2 ⟨hm, heq.symm.trans hid⟩
    exact Option.some.inj (hfn.symm.trans hfm)
  obtain ⟨hr2, rs, ht2, hrids, hrs⟩ := parse_nodes hj _ _ hr hids hnd
  obtain ⟨hr3, new, ht3, hnew⟩ := parse_edges hj v.panel.shown _ hr2 fun e _ => value_range (hv.color e)
  have hparse : parse env (XMLWriter.saved text v) (Viewer.newParser w) =
      parse env (v.panel.shown.flatMap (XMLWriter.edgeEvents v))
        (parse env (v.panel.completeEltSet.nodes.flatMap (XMLWriter.nodeEvents text v))
          (parse env (XMLWriter.opened v) (Viewer.newParser w))) := by
    rw [XMLWriter.saved_eq, parse_append, parse_append, parse_append]
    exact parse_closed hr3.thrown
  refine ⟨rs, new, ?_, ?_, hrs, ?_⟩
  · rw [hparse, ht3, ht2, ht]
    rfl
  · rw [← List.length_map, hrids, List.length_map]
  · rw [hnew, ht2, ht]
    have hnames : ∀ id, (⟨[] ++ rs, [], max v.pixelForOneMeter 1⟩ : Topology D).Names id ↔ v.topology.Names id := by
      intro id
      rw [Topology.names_iff, Topology.names_iff, List.nil_append, hrids, Viewer.topology, List.map_map]
      rfl
    simp only [hnames]

/-- No coordinate is `Double.MIN_VALUE`, every visible edge has got a quality and ends at IDs of the graph, and a
meter has a pixel. -/
structure Faithful (env : Env D) (v : Viewer D) : Prop where
  located : ∀ n ∈ v.panel.completeEltSet.nodes, Located env v n
  ends : ∀ e ∈ v.panel.shown, v.topology.Names (v.fromID e) ∧ v.topology.Names (v.toID e)
  color : ∀ e ∈ v.panel.shown, v.color e ≠ defaultColor
  pix : 1 ≤ v.pixelForOneMeter

omit [DecidableEq D] in
theorem names_concat (h : Edited env v) {id : Option String} :
    v.topology.Names id ↔ v.topology.Names (some (XMLWriter.concat id)) ∧ id = some (XMLWriter.concat id) := by
  constructor
  · rintro ⟨r, hr, rfl⟩
    obtain ⟨n, hn, rfl⟩ := List.mem_map.1 hr
    obtain ⟨id, hid⟩ := h.made.registered.id n hn
    have heq : (v.nodeRecord n).id = some (XMLWriter.concat (v.nodeRecord n).id) := by
      simp [Viewer.nodeRecord, hid, XMLWriter.concat]
    exact ⟨⟨_, hr, heq⟩, heq⟩
  · rintro ⟨hn, heq⟩
    rw [heq]
    exact hn

omit [DecidableEq D] in
theorem reread_eq_iff (h : Edited env v) (e : EdgeRef) : reread v e = v.edgeRecord e ↔
    v.fromID e = some (XMLWriter.concat (v.fromID e)) ∧ v.toID e = some (XMLWriter.concat (v.toID e)) ∧
      v.color e ≠ defaultColor := by
  rw [reread, Viewer.edgeRecord, EdgeRecord.mk.injEq, color_saved (h.color e), eq_comm,
    eq_comm (a := some (XMLWriter.concat (v.toID e)))]

/-- What comes back is what was saved exactly if the graph is `Faithful`. -/
theorem parse_saved_eq_iff (hj : Java env text) (hv : Edited env v) (hw : Edited env w) :
    (parse env (XMLWriter.saved text v) (Viewer.newParser w)).topology = v.topology ↔ Faithful env v := by
  obtain ⟨rs, new, ht, hlen, hrs, hnew⟩ := parse_saved hj hv hw
  have hnodes : rs ++ new = v.panel.completeEltSet.nodes.map v.nodeRecord ↔
      rs = v.panel.completeEltSet.nodes.map v.nodeRecord ∧ new = [] := by
    constructor
    · intro heq
      exact List.append_inj (heq.trans (List.append_nil _).symm) (by rw [hlen, List.length_map])
    · rintro ⟨rfl, rfl⟩
      exact List.append_nil _
  have hedges : v.panel.shown.map (reread v) = v.panel.shown.map v.edgeRecord ↔
      ∀ e ∈ v.panel.shown, reread v e = v.edgeRecord e := List.map_inj_left
  have hpix : max v.pixelForOneMeter 1 = v.pixelForOneMeter ↔ 1 ≤ v.pixelForOneMeter := max_eq_left_iff
  rw [ht, Viewer.topology, Topology.mk.injEq, hnodes, hrs, hnew, hedges, hpix]
  constructor
  · rintro ⟨⟨hlocated, hends⟩, hcolor, hpix⟩
    refine ⟨hlocated, fun e he => ?_, fun e he => ((reread_eq_iff hv e).1 (hcolor e he)).2.2, hpix⟩
    obtain ⟨hf, ht, -⟩ := (reread_eq_iff hv e).1 (hcolor e he)
    exact ⟨(names_concat hv).2 ⟨(hends e he).1, hf⟩, (names_concat hv).2 ⟨(hends e he).2, ht⟩⟩
  · rintro ⟨hlocated, hends, hcolor, hpix⟩
    have hends' := fun e he => (⟨(names_concat hv).1 (hends e he).1, (names_concat hv).1 (hends e he).2⟩ : _ ∧ _)
    exact ⟨⟨hlocated, fun e he => ⟨(hends' e he).1.1, (hends' e he).2.1⟩⟩,
      fun e he => (reread_eq_iff hv e).2 ⟨(hends' e he).1.2, (hends' e he).2.2, hcolor e he⟩, hpix⟩

/-- A panel with nothing on it. -/
structure EmptyPanel (env : Env D) (w : Viewer D) : Prop where
  reach : Lts.Reach (Viewer.edit env) Lts.Any (empty env) w
  completeEltSet : w.panel.completeEltSet = {}
  visibleLocality : w.panel.visibleLocality = {}
  nullEdge : w.nullEdge = false

theorem load_eq (hj : Java env text) {sax : String → List Xml.Event} (hs : Xml.Conforms sax)
    (hplain : XMLWriter.PlainStrings v) :
    load env sax (XMLWriter.writeXML text v) w = parse env (XMLWriter.saved text v) (Viewer.newParser w) := by
  rw [load, hs _ _ (XMLWriter.scan_writeXML hj.plain hplain)]

/-- **A graph of plain strings that is saved and loaded again on an empty panel is the same graph exactly if no
coordinate is `Double.MIN_VALUE`, every visible edge has got a quality and ends at IDs of the graph, and the metric
is positive.** -/
theorem save_load (hj : Java env text) {sax : String → List Xml.Event} (hs : Xml.Conforms sax)
    (hv : Lts.Reach (Viewer.edit env) Lts.Any (empty env) v) (hplain : XMLWriter.PlainStrings v) (hw : EmptyPanel env w) :
    (load env sax (XMLWriter.writeXML text v) w).topology = v.topology ↔ Faithful env v := by
  rw [load_eq hj hs hplain]
  exact parse_saved_eq_iff hj (Viewer.reach_edited env hj.range hv) (Viewer.reach_edited env hj.range hw.reach)

end

/-! ## Whole numbers -/

/-- The number that is written with these digits. -/
def natural (cs : List Char) : Option Nat :=
  if cs ≠ [] ∧ cs.all Char.isDigit = true then some (Nat.ofDigitChars 10 cs 0) else none

def integer (cs : List Char) : Option Int :=
  if cs.head? = some '-' then (natural cs.tail).map fun n : Nat => -(n : Int) else (natural cs).map Int.ofNat

/-- `5.0` is `5`. -/
def trimZero (cs : List Char) : List Char := if ['.', '0'] <:+ cs then cs.take (cs.length - 2) else cs

/-- `Double.toString` of whole numbers and, `none`, of `Double.MIN_VALUE`. -/
def wholeText : Option Int → String
  | some i => toString i ++ ".0"
  | none => "4.9E-324"

/-- An `Env` with whole numbers and `Double.MIN_VALUE` for doubles. -/
def whole : Env (Option Int) where
  newDouble s :=
    if s = "4.9E-324" then some none else (integer (trimZero s.toList)).map some
  intValue x := x.getD 0
  newInteger s := (integer s.toList).filter fun i => -2 ^ 31 ≤ i ∧ i < 2 ^ 31
  minValue := none
  screen := (some 640, some 512)
  random := fun _ => (some 0, some 0)

theorem isDigit_toDigits (n : Nat) : ∀ c ∈ Nat.toDigits 10 n, c.isDigit = true :=
  fun _ hc => Nat.isDigit_of_mem_toDigits (by decide) (by decide) hc

theorem natural_toDigits (n : Nat) : natural (Nat.toDigits 10 n) = some n := by
  rw [natural, if_pos ⟨Nat.toDigits_ne_nil, List.all_eq_true.2 (isDigit_toDigits n)⟩, Nat.ofDigitChars_ten_toDigits]

theorem integer_toString (i : Int) : integer (toString i).toList = some i := by
  rw [Int.toString_eq_repr, Int.repr_eq_if]
  split
  · rename_i h0
    have hhead : (Nat.toDigits 10 i.toNat).head? ≠ some '-' := fun hc =>
      absurd (isDigit_toDigits _ _ (List.mem_of_mem_head? hc)) (by decide)
    rw [Nat.toList_repr, integer, if_neg hhead, natural_toDigits]
    exact congrArg some (Int.toNat_of_nonneg h0)
  · rename_i h0
    have hlist : ("-" ++ (-i).toNat.repr).toList = '-' :: Nat.toDigits 10 (-i).toNat := by
      rw [String.toList_append, Nat.toList_repr]
      rfl
    rw [hlist, integer, List.head?_cons, if_pos rfl, List.tail_cons, natural_toDigits, Option.map_some]
    exact congrArg some (by omega)

theorem trimZero_append (cs : List Char) : trimZero (cs ++ ['.', '0']) = cs := by
  rw [trimZero, if_pos (List.suffix_append ..), List.length_append]
  exact List.take_left' rfl

theorem java_whole : Java whole wholeText where
  plain x := by
    cases x with
    | none => decide
    | some i => exact (Xml.plain_int i).append (by decide)
  newDouble x := by
    cases x with
    | none => rfl
    | some i =>
      have hzero : (toString i ++ ".0").toList = (toString i).toList ++ ['.', '0'] := by
        rw [String.toList_append]
        rfl
      have hne : toString i ++ ".0" ≠ "4.9E-324" := by
        intro heq
        have hlast := congrArg (fun s => s.toList.getLast?) heq
        simp only [hzero, List.getLast?_append] at hlast
        exact absurd (Option.some.inj hlast) (by decide)
      simp only [whole, wholeText]
      rw [if_neg hne, hzero, trimZero_append, integer_toString]
      rfl
  intValue p h0 _ := by
    have hdigits : ∀ c ∈ (toString p).toList, c.isDigit = true := by
      rw [Int.toString_eq_repr, Int.repr_eq_if, if_pos h0, Nat.toList_repr]
      exact isDigit_toDigits _
    have hdot : ∀ c, c.isDigit = false → c ∉ (toString p).toList := by
      intro c hc hmem
      rw [hdigits c hmem] at hc
      cases hc
    have hne : toString p ≠ "4.9E-324" := fun heq => hdot 'E' (by decide) (by rw [heq]; decide)
    have htrim : trimZero (toString p).toList = (toString p).toList :=
      if_neg fun hsuf => hdot '.' (by decide) (hsuf.subset (by decide))
    simp only [whole]
    rw [if_neg hne, htrim, integer_toString]
    rfl
  newInteger i h1 h2 := by
    simp only [whole]
    rw [integer_toString, Option.filter_some, if_pos (by simpa using ⟨h1, h2⟩)]
  range s i h := by
    have hi := (Option.filter_eq_some_iff.1 h).2
    simp only [decide_eq_true_eq] at hi
    exact hi.2
  screen := by decide
  random _ := by simp [whole]

/-- A parser that reports what `Xml.scan` finds. -/
def scanner (text : String) : List Xml.Event := (Xml.scan text.toList).getD []

theorem conforms_scanner : Xml.Conforms scanner := fun text events h => by rw [scanner, h, Option.getD_some]

theorem emptyPanel_empty (env : Env (Option Int)) : EmptyPanel env (empty env) := ⟨.refl, rfl, rfl, rfl⟩

/-- Two nodes and an edge between them, with a quality. -/
def qualityEdits : List (Edit (Option Int)) :=
  [.event (.startElement "node" [("id", "1"), ("name", "gateway"), ("x", "10.0"), ("y", "-20.0"), ("fixed", "true")]),
    .event (.startElement "edge" [("from", "1"), ("to", "2")]), .event (.startElement "quality" [("value", "50%")]),
    .event (.endElement "quality"), .event (.endElement "edge")]

theorem qualityEdits_possible :
    (Lts.execOk (Viewer.edit whole) Lts.Any (empty whole) qualityEdits).isSome = true := by decide +kernel

def qualityViewer : Viewer (Option Int) :=
  (Lts.execOk (Viewer.edit whole) Lts.Any (empty whole) qualityEdits).get qualityEdits_possible

theorem save_load_quality :
    (load whole scanner (XMLWriter.writeXML wholeText qualityViewer) (empty whole)).topology = qualityViewer.topology := by
  refine (save_load java_whole conforms_scanner (Lts.reach_get qualityEdits qualityEdits_possible) ?_
    (emptyPanel_empty whole)).2 ?_
  · exact ⟨by decide +kernel, by decide +kernel, by decide +kernel, by decide +kernel⟩
  · exact ⟨by decide +kernel, by decide +kernel, by decide +kernel, by decide +kernel⟩

/-- The same edge without a quality. -/
def plainEdits : List (Edit (Option Int)) := [.event (.startElement "edge" [("from", "1"), ("to", "2")])]

theorem plainEdits_possible :
    (Lts.execOk (Viewer.edit whole) Lts.Any (empty whole) plainEdits).isSome = true := by decide +kernel

/-- The default colour comes back as another one. -/
theorem default_color_lost : ¬∀ v w, Lts.Reach (Viewer.edit whole) Lts.Any (empty whole) v → EmptyPanel whole w →
    (load whole scanner (XMLWriter.writeXML wholeText v) w).topology = v.topology := by
  intro hall
  have hv : Lts.Reach (Viewer.edit whole) Lts.Any (empty whole)
      ((Lts.execOk (Viewer.edit whole) Lts.Any (empty whole) plainEdits).get plainEdits_possible) :=
    Lts.reach_get plainEdits plainEdits_possible
  have heq := hall _ _ hv (emptyPanel_empty whole)
  rw [load_eq java_whole conforms_scanner ⟨by decide +kernel, by decide +kernel, by decide +kernel, by decide +kernel⟩] at heq
  have hf := (parse_saved_eq_iff java_whole (Viewer.reach_edited whole java_whole.range hv)
    (Viewer.edited_empty whole)).1 heq
  exact absurd (hf.color 1 (by decide +kernel)) (by decide +kernel)

end InputParser

end Topo
