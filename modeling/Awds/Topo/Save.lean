import Awds.Lib.Xml
import Awds.Topo.Edits

/-!
# Saving a topology: `XMLWriter`

| here | there |
| --- | --- |
| `Viewer.topology`     | what is saved: the nodes, the visible edges and `pixOneMeter` |
| `text`                | `Double.toString` |
| `XMLWriter.value`     | the `byte` of the blue channel (`XMLWriter.java:44`) |
| `XMLWriter.writeXML`  | `writeXML` (:17), the lines and their ends |

The file is the text that is written, read in the charset it was written in (`writeXML` takes the platform's, and
names none in the file); failures of the file system are left out. `saved` are the elements of the file, and
`scan_writeXML` finds them in it.
-/

namespace Topo

variable {D : Type}

structure NodeRecord (D : Type) where
  id : Option String
  label : Option String
  location : D × D
  fixed : Bool
deriving DecidableEq, Repr

/-- The IDs of the ends, and the colour. -/
structure EdgeRecord where
  fromID : Option String
  toID : Option String
  color : Color
deriving DecidableEq, Repr

structure Topology (D : Type) where
  nodes : List (NodeRecord D)
  edges : List EdgeRecord
  pix : Int
deriving DecidableEq, Repr

namespace Viewer

def nodeRecord (v : Viewer D) (n : NodeRef) : NodeRecord D :=
  ⟨(v.panel.node n).id, (v.panel.node n).lbl, v.location n, v.fixed n⟩

def fromID (v : Viewer D) (e : EdgeRef) : Option String := (v.panel.node (v.panel.edge e).getFrom).id

def toID (v : Viewer D) (e : EdgeRef) : Option String := (v.panel.node (v.panel.edge e).getTo).id

def edgeRecord (v : Viewer D) (e : EdgeRef) : EdgeRecord := ⟨v.fromID e, v.toID e, v.color e⟩

def topology (v : Viewer D) : Topology D :=
  ⟨v.panel.completeEltSet.nodes.map v.nodeRecord, v.panel.shown.map v.edgeRecord, v.pixelForOneMeter⟩

end Viewer

namespace XMLWriter

/-- A string in a concatenation. -/
def concat (s : Option String) : String := s.getD "null"

/-- `(byte)(blue * 100.0 / 255.0 + 0.5)`. The sum is never an integer, and further from one than `double` is
inexact. -/
def value (blue : Int) : Int := (200 * blue + 255) / 510

variable (text : D → String)

def nodeLine (v : Viewer D) (n : NodeRef) : String :=
  "\t\t<node id=\"" ++ concat (v.panel.node n).id ++ "\" name=\"" ++ concat (v.panel.node n).lbl ++
    "\" x=\"" ++ text (v.location n).1 ++ "\" y=\"" ++ text (v.location n).2 ++ "\" fixed=\"" ++ toString (v.fixed n) ++ "\"/>"

def edgeLines (v : Viewer D) (e : EdgeRef) : List String :=
  if v.panel.isVisible e then
    ["\t\t<edge from=\"" ++ concat (v.fromID e) ++ "\" to=\"" ++ concat (v.toID e) ++ "\">",
      "\t\t\t<quality value=\"" ++ toString (value (v.color e).blue) ++ "%\"/>",
      "\t\t</edge>"]
  else []

def writeLine (line : String) : String := line ++ "\r\n"

def writeXML (v : Viewer D) : String :=
  String.join ((["<?xml version=\"1.0\"?>", "", "<graph>", "\t<topology>",
      "\t\t<metric pix=\"" ++ toString v.pixelForOneMeter ++ "\"/>"] ++
    v.panel.completeEltSet.nodes.map (nodeLine text v) ++
    v.panel.completeEltSet.edges.flatMap (edgeLines v) ++
    ["\t</topology>", "</graph>"]).map writeLine)

/-! ## The elements of the file -/

def nodeAttrs (v : Viewer D) (n : NodeRef) : Xml.Attributes :=
  [("id", concat (v.panel.node n).id), ("name", concat (v.panel.node n).lbl), ("x", text (v.location n).1),
    ("y", text (v.location n).2), ("fixed", toString (v.fixed n))]

def nodeEvents (v : Viewer D) (n : NodeRef) : List Xml.Event :=
  [.startElement "node" (nodeAttrs text v n), .endElement "node"]

def edgeAttrs (v : Viewer D) (e : EdgeRef) : Xml.Attributes :=
  [("from", concat (v.fromID e)), ("to", concat (v.toID e))]

def qualityAttrs (v : Viewer D) (e : EdgeRef) : Xml.Attributes := [("value", toString (value (v.color e).blue) ++ "%")]

def edgeEvents (v : Viewer D) (e : EdgeRef) : List Xml.Event :=
  [.startElement "edge" (edgeAttrs v e), .startElement "quality" (qualityAttrs v e), .endElement "quality",
    .endElement "edge"]

/-- What stands between the tags of `topology`. -/
def topologyEvents (v : Viewer D) : List Xml.Event :=
  [.startElement "metric" [("pix", toString v.pixelForOneMeter)], .endElement "metric"] ++
    (v.panel.completeEltSet.nodes.flatMap (nodeEvents text v) ++ v.panel.shown.flatMap (edgeEvents v))

def saved (v : Viewer D) : List Xml.Event :=
  .startElement "graph" [] :: ((.startElement "topology" [] :: (topologyEvents text v ++ [.endElement "topology"])) ++
    [.endElement "graph"])

/-- What comes before the nodes. -/
def opened (v : Viewer D) : List Xml.Event :=
  [.startElement "graph" [], .startElement "topology" [], .startElement "metric" [("pix", toString v.pixelForOneMeter)],
    .endElement "metric"]

/-- What comes after the edges. -/
def closed : List Xml.Event := [.endElement "topology", .endElement "graph"]

theorem saved_eq (v : Viewer D) : saved text v =
    opened v ++ (v.panel.completeEltSet.nodes.flatMap (nodeEvents text v) ++
      (v.panel.shown.flatMap (edgeEvents v) ++ closed)) := by
  simp [saved, topologyEvents, opened, closed]

/-- No ID and no label needs a reference or is normalised. -/
structure PlainStrings (v : Viewer D) : Prop where
  id : ∀ n ∈ v.panel.completeEltSet.nodes, Xml.Plain (concat (v.panel.node n).id)
  label : ∀ n ∈ v.panel.completeEltSet.nodes, Xml.Plain (concat (v.panel.node n).lbl)
  fromID : ∀ e ∈ v.panel.shown, Xml.Plain (concat (v.fromID e))
  toID : ∀ e ∈ v.panel.shown, Xml.Plain (concat (v.toID e))

/-! ## Scanning the file -/

variable {text} {v : Viewer D} {n : NodeRef} {e : EdgeRef}

theorem wellFormed_nodeAttrs (htext : ∀ x, Xml.Plain (text x)) (h : PlainStrings v)
    (hn : n ∈ v.panel.completeEltSet.nodes) : Xml.WellFormed (nodeAttrs text v n) := by
  refine ⟨?_, ?_, ?_⟩
  · simp only [nodeAttrs, List.forall_mem_cons]
    decide
  · have hfixed : ∀ b : Bool, Xml.Plain (toString b) := by decide
    simp [nodeAttrs, h.id n hn, h.label n hn, htext, hfixed]
  · simp only [nodeAttrs, List.map_cons, List.map_nil]
    decide

theorem content_nodeLine (htext : ∀ x, Xml.Plain (text x)) (h : PlainStrings v)
    (hn : n ∈ v.panel.completeEltSet.nodes) : Xml.Content (writeLine (nodeLine text v n)).toList (nodeEvents text v n) := by
  have heq : (writeLine (nodeLine text v n)).toList =
      ['\t', '\t'] ++ (Xml.emptyTag "node" (nodeAttrs text v n) ++ ['\r', '\n']) := by
    unfold writeLine nodeLine nodeAttrs Xml.emptyTag
    simp only [List.flatMap_cons, List.flatMap_nil, Xml.attrText]
    simp only [String.toList_append, String.reduceToList, List.cons_append, List.nil_append, List.append_nil,
      List.append_assoc]
  have htag : Xml.Content (Xml.emptyTag "node" (nodeAttrs text v n)) (nodeEvents text v n) :=
    Xml.Content.emptyTag (by decide) (wellFormed_nodeAttrs htext h hn)
  rw [heq]
  exact .spaced (by simp [Xml.isSpace]) htag (by simp [Xml.isSpace])

theorem wellFormed_edgeAttrs (h : PlainStrings v) (he : e ∈ v.panel.shown) : Xml.WellFormed (edgeAttrs v e) := by
  refine ⟨?_, ?_, ?_⟩
  · simp only [edgeAttrs, List.forall_mem_cons]
    decide
  · simp [edgeAttrs, h.fromID e he, h.toID e he]
  · simp only [edgeAttrs, List.map_cons, List.map_nil]
    decide

theorem wellFormed_qualityAttrs (v : Viewer D) (e : EdgeRef) : Xml.WellFormed (qualityAttrs v e) := by
  refine ⟨?_, ?_, List.nodup_singleton _⟩
  · simp only [qualityAttrs, List.forall_mem_cons]
    decide
  · intro a ha
    rw [List.mem_singleton.1 ha]
    exact (Xml.plain_int _).append (by decide)

theorem content_edgeLines (h : PlainStrings v) (he : e ∈ v.panel.shown) :
    Xml.Content ((edgeLines v e).flatMap fun line => (writeLine line).toList) (edgeEvents v e) := by
  have heq : ((edgeLines v e).flatMap fun line => (writeLine line).toList) =
      ['\t', '\t'] ++ ((Xml.startTag "edge" (edgeAttrs v e) ++ ((['\r', '\n', '\t', '\t', '\t'] ++
        (Xml.emptyTag "quality" (qualityAttrs v e) ++ ['\r', '\n', '\t', '\t'])) ++ Xml.endTag "edge")) ++ ['\r', '\n']) := by
    unfold edgeLines edgeAttrs qualityAttrs Xml.startTag Xml.emptyTag Xml.endTag
    rw [if_pos (St.mem_shown.1 he).2]
    simp only [List.flatMap_cons, List.flatMap_nil, Xml.attrText, writeLine]
    simp only [String.toList_append, String.reduceToList, List.cons_append, List.nil_append, List.append_nil,
      List.append_assoc]
  have hquality : Xml.Content (Xml.emptyTag "quality" (qualityAttrs v e))
      [.startElement "quality" (qualityAttrs v e), .endElement "quality"] :=
    Xml.Content.emptyTag (by decide) (wellFormed_qualityAttrs v e)
  have hedge : Xml.Content (Xml.startTag "edge" (edgeAttrs v e) ++ ((['\r', '\n', '\t', '\t', '\t'] ++
      (Xml.emptyTag "quality" (qualityAttrs v e) ++ ['\r', '\n', '\t', '\t'])) ++ Xml.endTag "edge")) (edgeEvents v e) :=
    .element (by decide) (wellFormed_edgeAttrs h he) (.spaced (by simp [Xml.isSpace]) hquality (by simp [Xml.isSpace]))
  rw [heq]
  exact .spaced (by simp [Xml.isSpace]) hedge (by simp [Xml.isSpace])

theorem wellFormed_pixAttrs (i : Int) : Xml.WellFormed [("pix", toString i)] := by
  refine ⟨?_, ?_, List.nodup_singleton _⟩
  · simp only [List.forall_mem_cons]
    decide
  · intro a ha
    rw [List.mem_singleton.1 ha]
    exact Xml.plain_int i

/-- The lines between the tags of `topology`. -/
def topologyText (text : D → String) (v : Viewer D) : List Char :=
  (writeLine ("\t\t<metric pix=\"" ++ toString v.pixelForOneMeter ++ "\"/>")).toList ++
    ((v.panel.completeEltSet.nodes.flatMap fun n => (writeLine (nodeLine text v n)).toList) ++
      v.panel.completeEltSet.edges.flatMap fun e => (edgeLines v e).flatMap fun line => (writeLine line).toList)

theorem flatMap_filter_of_nil {α β : Type*} {p : α → Bool} {f : α → List β} (h : ∀ a, p a = false → f a = []) :
    ∀ l : List α, (l.filter p).flatMap f = l.flatMap f
  | [] => rfl
  | a :: l => by
    cases hp : p a with
    | true => rw [List.filter_cons_of_pos hp, List.flatMap_cons, List.flatMap_cons, flatMap_filter_of_nil h l]
    | false =>
      rw [List.filter_cons_of_neg (by simp [hp]), List.flatMap_cons, h a hp, List.nil_append, flatMap_filter_of_nil h l]

theorem content_topology (htext : ∀ x, Xml.Plain (text x)) (h : PlainStrings v) :
    Xml.Content (topologyText text v) (topologyEvents text v) := by
  have heq : (writeLine ("\t\t<metric pix=\"" ++ toString v.pixelForOneMeter ++ "\"/>")).toList =
      ['\t', '\t'] ++ (Xml.emptyTag "metric" [("pix", toString v.pixelForOneMeter)] ++ ['\r', '\n']) := by
    unfold writeLine Xml.emptyTag
    simp only [List.flatMap_cons, List.flatMap_nil, Xml.attrText]
    simp only [String.toList_append, String.reduceToList, List.cons_append, List.nil_append, List.append_nil,
      List.append_assoc]
  have hmetric : Xml.Content (Xml.emptyTag "metric" [("pix", toString v.pixelForOneMeter)])
      [.startElement "metric" [("pix", toString v.pixelForOneMeter)], .endElement "metric"] :=
    Xml.Content.emptyTag (by decide) (wellFormed_pixAttrs _)
  have hedges : ∀ e, v.panel.isVisible e = false →
      ((edgeLines v e).flatMap fun line => (writeLine line).toList) = [] := fun e he => by
    rw [edgeLines, if_neg (by simp [he])]
    rfl
  rw [topologyText, heq, ← flatMap_filter_of_nil hedges]
  exact (Xml.Content.spaced (by simp [Xml.isSpace]) hmetric (by simp [Xml.isSpace])).append
    ((Xml.Content.flatMap fun n hn => content_nodeLine htext h hn).append
      (.flatMap fun e he => content_edgeLines h he))

theorem toList_writeXML (text : D → String) (v : Viewer D) : (writeXML text v).toList =
    Xml.declaration ++ (['\r', '\n', '\r', '\n'] ++ (Xml.startTag "graph" [] ++ ((['\r', '\n', '\t'] ++
      ((Xml.startTag "topology" [] ++ ((['\r', '\n'] ++ (topologyText text v ++ ['\t'])) ++ Xml.endTag "topology")) ++
        ['\r', '\n'])) ++ (Xml.endTag "graph" ++ ['\r', '\n'])))) := by
  unfold writeXML topologyText Xml.declaration Xml.startTag Xml.endTag
  rw [String.toList_join]
  simp only [List.map_append, List.map_cons, List.map_nil, List.flatMap_append, List.flatMap_cons, List.flatMap_nil,
    List.flatMap_map, List.flatMap_assoc]
  simp only [writeLine, String.toList_append, String.reduceToList, List.cons_append, List.nil_append, List.append_nil,
    List.append_assoc]

/-- The file is the document of its elements. -/
theorem scan_writeXML (htext : ∀ x, Xml.Plain (text x)) (h : PlainStrings v) :
    Xml.scan (writeXML text v).toList = some (saved text v) := by
  have hnone : Xml.WellFormed [] := ⟨by simp, by simp, List.nodup_nil⟩
  have htopology : Xml.Content
      (Xml.startTag "topology" [] ++ ((['\r', '\n'] ++ (topologyText text v ++ ['\t'])) ++ Xml.endTag "topology"))
      (.startElement "topology" [] :: (topologyEvents text v ++ [.endElement "topology"])) :=
    .element (by decide) hnone (.spaced (by simp [Xml.isSpace]) (content_topology htext h) (by simp [Xml.isSpace]))
  rw [toList_writeXML]
  exact Xml.scan_document (by decide) hnone (.spaced (by simp [Xml.isSpace]) htopology (by simp [Xml.isSpace]))
    (by simp [Xml.isSpace]) (by simp [Xml.isSpace])

end XMLWriter

end Topo
