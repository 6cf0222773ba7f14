import Awds.Topo.Calls

/-!
# The topology stream: `InputParser`

| here | there |
| --- | --- |
| `Env`                     | what the parser takes from Java: `Double`, `Integer`, the screen, `Math.random` |
| `Viewer`                  | the panel, the fields of `Edge` and `Node` the stream sets, `InputParser.connect` (`InputParser.java:12`) and the counters of `JTopoStatusBar` |
| `Viewer.thrown`           | an unchecked exception has left `startElement`: the parser stops there |
| `Viewer.nullEdge`         | `null` is an element of `visibleLocality.edges`; only an exception follows, so no other definition looks at it |
| `toLowerCase`             | `String.toLowerCase`, ASCII: no other character becomes a letter of the words compared with |
| `InputParser.nodeElement` | the branch of `id` for `node`, `add_node` and `modify_node` (:105-163), which reads all attributes behind it |
| `InputParser.attributeBranch` | the other branches of the loop (:164-253) |
| `InputParser.startElement`, `endElement`, `startDocument` | the handlers (:94, :258, :86) |

An attribute list is what `Attributes` holds, in its order. The messages printed to `System.out` are left out.
-/

namespace Topo

/-- `java.awt.Color`. -/
structure Color where
  red : Int
  green : Int
  blue : Int
deriving DecidableEq, Repr

/-- `Edge.DEFAULT_COLOR` (`Edge.java:63`), `#006090`. -/
def defaultColor : Color := ⟨0, 96, 144⟩

/-- What comes from Java. `none` is a `NumberFormatException`, `screen` is half the width and half the height of
the screen, `random` is where `Node.initialize` puts a node. -/
structure Env (D : Type) where
  newDouble : String → Option D
  intValue : D → Int
  newInteger : String → Option Int
  minValue : D
  screen : D × D
  random : NodeRef → D × D

/-- An exception that `startElement` does not catch. -/
inductive Unchecked where
  | nullPointer
  | stringIndexOutOfBounds
deriving DecidableEq, Repr

structure Viewer (D : Type) where
  panel : St
  color : EdgeRef → Color
  location : NodeRef → D × D
  fixed : NodeRef → Bool
  pixelForOneMeter : Int
  connect : Option EdgeRef
  nodeCnt : Int
  edgeCnt : Int
  nullEdge : Bool
  thrown : Option Unchecked

abbrev Attributes := List (String × String)

def toLowerCase (s : String) : String := String.ofList (s.toList.map Char.toLower)

namespace InputParser

variable {D : Type} [DecidableEq D] (env : Env D)

/-- A method of `node` is called. -/
def deref (node : Option NodeRef) (v : Viewer D) (f : NodeRef → Viewer D) : Viewer D :=
  match node with
  | none => { v with thrown := some .nullPointer }
  | some n => f n

/-! ## Nodes -/

/-- `tg_panel.addNode(new Node(id, id))` and `incNodeCnt`; a `TGException` is caught between the two. -/
def addNew (id : String) (v : Viewer D) : Viewer D :=
  match TGPanel.addNode v.panel.nodesMade (newNode (some id) (some id) v.panel) with
  | (s, none) => { v with panel := s, nodeCnt := v.nodeCnt + 1 }
  | (s, some _) => { v with panel := s }

def setLabel (label : String) (n : NodeRef) (v : Viewer D) : Viewer D :=
  { v with panel := v.panel.setNode n fun x => { x with lbl := some label } }

def setFixed (n : NodeRef) (v : Viewer D) : Viewer D := { v with fixed := Function.update v.fixed n true }

def setLocation (x y : D) (n : NodeRef) (v : Viewer D) : Viewer D :=
  { v with location := Function.update v.location n (x, y) }

/-- The `while` loop behind an `id` (:122-157) and what follows it. -/
def nodeAttributes (node : Option NodeRef) : Attributes → D → D → Viewer D → Viewer D
  | [], x, y, v =>
    if x = env.minValue ∧ y = env.minValue then v
    else deref node v fun n =>
      setLocation (if x = env.minValue then env.screen.1 else x) (if y = env.minValue then env.screen.2 else y) n v
  | (name, value) :: rest, x, y, v =>
    if toLowerCase name = "name" then deref node v fun n => nodeAttributes node rest x y (setLabel value n v)
    else if toLowerCase name = "x" then nodeAttributes node rest ((env.newDouble value).getD x) y v
    else if toLowerCase name = "y" then nodeAttributes node rest x ((env.newDouble value).getD y) v
    else if toLowerCase name = "fixed" ∧ toLowerCase value = "true" then
      deref node v fun n => nodeAttributes node rest x y (setFixed n v)
    else nodeAttributes node rest x y v

def isNewNode (ntag : String) : Bool := ntag = "node" || ntag = "add_node"

def nodeElement (ntag id : String) (rest : Attributes) (v : Viewer D) : Viewer D :=
  if isNewNode ntag then nodeAttributes env (some v.panel.nodesMade) rest env.minValue env.minValue (addNew id v)
  else nodeAttributes env (v.panel.completeEltSet.findNode id) rest env.minValue env.minValue v

/-- `tg_panel.deleteNodeById` (`TGPanel.java:442`) and `decNodeCnt`. -/
def removeNode (id : String) (v : Viewer D) : Viewer D :=
  let s := match v.panel.completeEltSet.findNode id with
    | none => v.panel
    | some n => TGPanel.deleteNode (some n) v.panel
  { v with panel := s, nodeCnt := v.nodeCnt - 1 }

/-! ## Edges -/

/-- An end of an edge, `found` or added (:173-196). -/
def endNode (found : Option NodeRef) (id : String) (v : Viewer D) : NodeRef × Viewer D :=
  match found with
  | some n => (n, v)
  | none => (v.panel.nodesMade, addNew id v)

/-- Both ends are looked up before one is added (:171-196). -/
def endNodes (fromID toID : String) (v : Viewer D) : NodeRef × NodeRef × Viewer D :=
  let f := endNode (v.panel.completeEltSet.findNode fromID) fromID v
  let t := endNode (v.panel.completeEltSet.findNode toID) toID f.2
  (f.1, t.1, t.2)

/-- `tg_panel.addEdge(connect)`: `VisibleLocality.addEdge` lets a `null` into the locality before it reads the
ends (:81). -/
def addConnect (v : Viewer D) : Viewer D :=
  match v.connect with
  | none => { v with nullEdge := true, thrown := some .nullPointer }
  | some e => { v with panel := TGPanel.addMade e v.panel }

def connectNew (f t : NodeRef) (v : Viewer D) : Viewer D :=
  { v with
    panel := newEdge f t true v.panel
    color := Function.update v.color v.panel.edgesMade defaultColor
    connect := some v.panel.edgesMade
    edgeCnt := v.edgeCnt + 1 }

/-- The branch of `to` for `edge`, `add_edge` and `modify_edge` (:170-206). -/
def connectEdge (ntag fromID toID : String) (v : Viewer D) : Viewer D :=
  let (f, t, v) := endNodes fromID toID v
  addConnect (if ntag = "modify_edge" then { v with connect := VisibleLocality.findEdge f t v.panel }
    else connectNew f t v)

/-- The branch of `to` for `remove_edge` (:207-217). -/
def removeEdge (fromID toID : String) (v : Viewer D) : Viewer D :=
  match v.panel.completeEltSet.findNode fromID, v.panel.completeEltSet.findNode toID with
  | some f, some t => { v with panel := TGPanel.deleteEdgeBetween f t v.panel, edgeCnt := v.edgeCnt - 1 }
  | _, _ => v

/-- The colour of a quality of `percent` (:235). -/
def qualityColor (percent : Int) : Color :=
  let val := 255 * min (max percent 1) 100 / 100
  ⟨255 - val, 255 - val, val⟩

/-- The branch of `value` (:221-238); `substring` throws where there is no `%`. -/
def quality (value : String) (v : Viewer D) : Viewer D :=
  match v.connect with
  | none => v
  | some e =>
    if '%' ∈ value.toList then
      let number := String.ofList (value.toList.takeWhile (· ≠ '%'))
      { v with color := Function.update v.color e (qualityColor (((env.newDouble number).map env.intValue).getD 100)) }
    else { v with thrown := some .stringIndexOutOfBounds }

/-- The branch of `pix` (:240-253). -/
def metric (value : String) (v : Viewer D) : Viewer D :=
  { v with pixelForOneMeter := max ((env.newInteger value).getD 1) 1 }

def isEdge (ntag : String) : Bool := ntag = "edge" || ntag = "add_edge" || ntag = "modify_edge"

/-! ## The handlers -/

/-- One round of the loop over the attributes; `prev` is `attributes.getValue(i-1)`. -/
def attributeBranch (ntag : String) (prev : Option String) (name value : String) (v : Viewer D) : Viewer D :=
  if toLowerCase name = "id" then
    if ntag = "remove_node" then removeNode value v else v
  else if toLowerCase name = "to" then
    match prev with
    | none => v
    | some fromID =>
      if isEdge ntag then connectEdge ntag fromID value v
      else if ntag = "remove_edge" then removeEdge fromID value v
      else v
  else if toLowerCase name = "value" then quality env value v
  else if toLowerCase name = "pix" then metric env value v
  else v

/-- The `id` of these elements takes all attributes behind it (:111-163). -/
def isNode (ntag : String) : Bool := isNewNode ntag || ntag = "modify_node"

/-- The loop over the attributes (:103). -/
def attributes (ntag : String) : Option String → Attributes → Viewer D → Viewer D
  | _, [], v => v
  | prev, (name, value) :: rest, v =>
    if toLowerCase name = "id" ∧ isNode ntag = true then nodeElement env ntag value rest v
    else
      let v := attributeBranch env ntag prev name value v
      if v.thrown.isSome then v else attributes ntag (some value) rest v

def startElement (qName : String) (attrs : Attributes) (v : Viewer D) : Viewer D :=
  if toLowerCase qName = "topology" then { v with panel := TGPanel.clearAll v.panel }
  else attributes env (toLowerCase qName) none attrs v

def endElement (qName : String) (v : Viewer D) : Viewer D :=
  let ntag := toLowerCase qName
  if ntag = "edge" ∨ ntag = "add_edge" ∨ ntag = "remove_edge" then { v with connect := none } else v

def startDocument (v : Viewer D) : Viewer D := { v with nodeCnt := 0, edgeCnt := 0 }

/-! ## Streams -/

/-- What the SAX parser reports between `startDocument` and `endDocument`. -/
inductive Event where
  | startElement (qName : String) (attrs : Attributes)
  | endElement (qName : String)
deriving DecidableEq, Repr

def handle : Event → Viewer D → Viewer D
  | .startElement qName attrs, v => startElement env qName attrs v
  | .endElement qName, v => endElement qName v

/-- One event. There is none after an exception. -/
def step (v : Viewer D) (ev : Event) : Option (Viewer D) :=
  if v.thrown.isSome then none else some (handle env ev v)

/-- A new viewer. No node and no edge is made yet. -/
def empty : Viewer D where
  panel := init
  color := fun _ => defaultColor
  location := env.random
  fixed := fun _ => false
  pixelForOneMeter := 20
  connect := none
  nodeCnt := 0
  edgeCnt := 0
  nullEdge := false
  thrown := none

/-- An empty panel at the start of a stream. -/
def init : Viewer D := startDocument (empty env)

/-- The number that a text of digits is. -/
def digits (s : String) : Option Int :=
  if s ≠ "" ∧ s.toList.all Char.isDigit = true then
    some (s.toList.foldl (fun n c => 10 * n + (c.toNat - '0'.toNat : Nat)) 0)
  else none

/-- An `Env` with whole numbers for doubles, to run streams of plain numbers in. -/
def decimal : Env Int where
  newDouble := digits
  intValue := id
  newInteger := digits
  minValue := -1
  screen := (640, 512)
  random := fun _ => (0, 0)

end InputParser

end Topo
