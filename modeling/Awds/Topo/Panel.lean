import Mathlib

/-!
# The graph of the topology viewer: `topoviewer/src/graphlayout`

| here | there |
| --- | --- |
| `Edge`                   | `Edge` (`Edge.java:61`) |
| `Node`                   | `Node` (`Node.java:67`); `partID` is `part_id` (:108) |
| `GraphEltSet`            | `GraphEltSet` (`graphelements/GraphEltSet.java:71`) |
| `St.globPartCnt`         | how often `Node.glob_part_cnt` (:139) was incremented; `partIDOf k` is the `int` after `k` increments |
| `Node.addEdge`           | `Node.addEdge` (:394) |
| `Node.removeEdge`        | `Node.removeEdge` (:415) |
| `VisibleLocality.*`      | `VisibleLocality.java:68` over `Locality.java:71` |
| `TGPanel.*`              | `TGPanel.addNode` (:427) .. `addEdge` (:534), `updatePartitions` (:182) |

Objects are numbers: `St.node` and `St.edge` are what the references point at. Each panel method is a
function on `St`; `TGPanel.addNode` also says what it throws. Positions, colours, the selection and the
visibility of nodes are left out: nothing here reads them. The panel starts with
`setGraphEltSet(new GraphEltSet())` (`TGPanel.java:141`).
-/

namespace Topo

abbrev NodeRef := Nat
abbrev EdgeRef := Nat

/-- `Edge` (`Edge.java:61`): its ends and `visible`. -/
structure Edge where
  getFrom : NodeRef
  getTo : NodeRef
  isVisible : Bool
deriving DecidableEq, Repr

/-- `Node` (`Node.java:67`); a null `String` is `none`. -/
structure Node where
  id : Option String
  lbl : Option String
  partID : Int
  edges : List EdgeRef
deriving DecidableEq, Repr

structure GraphEltSet where
  nodes : List NodeRef := []
  edges : List EdgeRef := []
  nodeIDRegistry : List (String × NodeRef) := []
deriving DecidableEq, Repr

structure St where
  node : NodeRef → Node
  nodesMade : Nat
  edge : EdgeRef → Edge
  edgesMade : Nat
  globPartCnt : Nat
  visibleEdgeCnt : NodeRef → Int
  completeEltSet : GraphEltSet
  visibleLocality : GraphEltSet

/-- What `addNode` throws: a `TGException` with `NODE_EXISTS` and its text, or the
`NullPointerException` of `getLabel().trim()` (`GraphEltSet.java:135`). -/
inductive Thrown where
  | nodeExists (message : String)
  | nullPointer
deriving DecidableEq, Repr

/-- The `int` that `glob_part_cnt` is after `k` increments. -/
def partIDOf (k : Nat) : Int := Int.bmod k (2 ^ 32)

namespace St

def setNode (s : St) (n : NodeRef) (f : Node → Node) : St :=
  { s with node := Function.update s.node n (f (s.node n)) }

def setPartID (s : St) (n : NodeRef) (part : Int) : St := s.setNode n fun v => { v with partID := part }

def setEdges (s : St) (n : NodeRef) (es : List EdgeRef) : St := s.setNode n fun v => { v with edges := es }

/-- `glob_part_cnt++` into the `part_id` of `n`. -/
def drawPartID (s : St) (n : NodeRef) : St :=
  { s.setPartID n (partIDOf s.globPartCnt) with globPartCnt := s.globPartCnt + 1 }

/-- `completeEltSet.edges` becomes `es`. -/
def setCompleteEdges (s : St) (es : List EdgeRef) : St :=
  { s with completeEltSet := { s.completeEltSet with edges := es } }

/-- `visibleLocality.edges` becomes `es`. -/
def setLocalEdges (s : St) (es : List EdgeRef) : St :=
  { s with visibleLocality := { s.visibleLocality with edges := es } }

def isVisible (s : St) (e : EdgeRef) : Bool := (s.edge e).isVisible

/-- `visibleEdgeCnt` of both ends of `e` goes up by `d` (`VisibleLocality.java:82`, :91). -/
def countEdge (s : St) (e : EdgeRef) (d : Int) : St :=
  let count := fun (cnt : NodeRef → Int) (n : NodeRef) => Function.update cnt n (cnt n + d)
  { s with visibleEdgeCnt := count (count s.visibleEdgeCnt (s.edge e).getFrom) (s.edge e).getTo }

end St

/-! ## `Node` -/

/-- The constructors of `Node` (`Node.java:150-184`): a null label is taken from the ID. -/
def newNode (id lbl : Option String) (s : St) : St :=
  { s with
    node := Function.update s.node s.nodesMade ⟨id, lbl.or id, partIDOf s.globPartCnt, []⟩
    visibleEdgeCnt := Function.update s.visibleEdgeCnt s.nodesMade 0
    nodesMade := s.nodesMade + 1
    globPartCnt := s.globPartCnt + 1 }

/-- The body of the second loop of `addEdge` (`Node.java:403-409`). -/
def relabel (part : Int) (s : St) (e : EdgeRef) : St :=
  if s.isVisible e then (s.setPartID (s.edge e).getFrom part).setPartID (s.edge e).getTo part else s

/-- `Node.addEdge` (`Node.java:394`). -/
def Node.addEdge (n : NodeRef) (e : EdgeRef) (s : St) : St :=
  let s := s.setEdges n ((s.node n).edges ++ [e])
  match (s.node n).edges.dropWhile (!s.isVisible ·) with
  | [] => s
  | k :: rest => (k :: rest).foldl (relabel (s.node (s.edge k).getFrom).partID) s

/-- `Node.removeEdge` (`Node.java:415`). -/
def Node.removeEdge (n : NodeRef) (e : EdgeRef) (s : St) : St :=
  let s := if (s.node n).edges.length = 1 then s.drawPartID n else s
  s.setEdges n ((s.node n).edges.erase e)

/-! ## `Edge` and `GraphEltSet` -/

/-- `new Edge(f, t, len)` followed by `setVisible(visible)`; the new edge is `s.edgesMade`. -/
def newEdge (f t : NodeRef) (visible : Bool) (s : St) : St :=
  { s with edge := Function.update s.edge s.edgesMade ⟨f, t, visible⟩, edgesMade := s.edgesMade + 1 }

/-- `String.trim`. -/
def trim (s : String) : String :=
  String.ofList ((s.toList.dropWhile (· ≤ ' ')).reverse.dropWhile (· ≤ ' ')).reverse

namespace GraphEltSet

def findNode (g : GraphEltSet) (id : String) : Option NodeRef := g.nodeIDRegistry.lookup id

/-- `nodeIDRegistry.put(id,node); nodes.addElement(node)` (:131, :145). -/
def put (g : GraphEltSet) (id : String) (n : NodeRef) : GraphEltSet :=
  { g with nodes := g.nodes ++ [n], nodeIDRegistry := (id, n) :: g.nodeIDRegistry.filter (·.1 ≠ id) }

/-- The loop at :141 from `i` on: the first index whose ID is free. One of the next
`nodeIDRegistry.length + 1` is. -/
def freeIndex (g : GraphEltSet) (label : String) : Nat → Nat → Nat
  | 0, i => i
  | fuel + 1, i =>
    if (g.findNode (label ++ "-" ++ toString i)).isSome then freeIndex g label fuel (i + 1) else i

/-- `GraphEltSet.addNode` (:126): the ID the node has now and the set with it. -/
def addNode (g : GraphEltSet) (n : NodeRef) (node : Node) : Except Thrown (String × GraphEltSet) :=
  match node.id with
  | some id =>
    if (g.findNode id).isNone then .ok (id, g.put id n)
    else .error (.nodeExists ("node ID '" ++ id ++ "' already exists."))
  | none => match node.lbl with
    | none => .error .nullPointer
    | some lbl =>
      let label := trim lbl
      let id := if label ≠ "" ∧ (g.findNode lbl).isNone then label
        else label ++ "-" ++ toString (g.freeIndex label (g.nodeIDRegistry.length + 1) 1)
      .ok (id, g.put id n)

/-- `nodes.removeElement(node)` and the removal from the registry (:303-306, `Locality.java:179`). -/
def drop (g : GraphEltSet) (n : NodeRef) (node : Node) : GraphEltSet :=
  { g with
    nodes := g.nodes.erase n
    nodeIDRegistry := match node.id with
      | some id => g.nodeIDRegistry.filter (·.1 ≠ id)
      | none => g.nodeIDRegistry }

/-- `GraphEltSet.addEdge` (:179) of `completeEltSet`. -/
def addEdge (e : EdgeRef) (s : St) : St :=
  if e ∈ s.completeEltSet.edges then s
  else
    let s := s.setCompleteEdges (s.completeEltSet.edges ++ [e])
    Node.addEdge (s.edge e).getTo e (Node.addEdge (s.edge e).getFrom e s)

/-- `GraphEltSet.deleteEdge` (:270) of `completeEltSet`. -/
def deleteEdge (e : EdgeRef) (s : St) : St :=
  if e ∈ s.completeEltSet.edges then
    let s := s.setCompleteEdges (s.completeEltSet.edges.erase e)
    Node.removeEdge (s.edge e).getTo e (Node.removeEdge (s.edge e).getFrom e s)
  else s

/-- `GraphEltSet.findEdge` (:261). -/
def findEdge (f t : NodeRef) (s : St) : Option EdgeRef :=
  (s.node f).edges.find? fun e => (s.edge e).getTo = t

/-- The body of the loop of `deleteNode` (:309-321). -/
def unlink (n : NodeRef) (e : EdgeRef) (s : St) : St :=
  if (s.edge e).getFrom = n then
    Node.removeEdge (s.edge e).getTo e (s.setCompleteEdges (s.completeEltSet.edges.erase e))
  else if (s.edge e).getTo = n then
    Node.removeEdge (s.edge e).getFrom e (s.setCompleteEdges (s.completeEltSet.edges.erase e))
  else s

/-- The loop of `deleteNode` (:308) at index `i`: it reads the vector it may change, so `node.edgeCount()`
before the loop bounds its rounds. -/
def unlinkFrom (n : NodeRef) : Nat → Nat → St → St
  | 0, _, s => s
  | fuel + 1, i, s => match (s.node n).edges[i]? with
    | none => s
    | some e => unlinkFrom n fuel (i + 1) (unlink n e s)

/-- `GraphEltSet.deleteNode` (:300) of `completeEltSet`. -/
def deleteNode (n : NodeRef) (s : St) : St :=
  if n ∈ s.completeEltSet.nodes then
    unlinkFrom n (s.node n).edges.length 0
      { s with completeEltSet := s.completeEltSet.drop n (s.node n) }
  else s

end GraphEltSet

/-! ## `VisibleLocality` -/

namespace VisibleLocality

/-- `VisibleLocality.addNode` (:74), `Locality.addNode` (`Locality.java:88`). -/
def addNode (n : NodeRef) (s : St) : St × Option Thrown :=
  if n ∈ s.visibleLocality.nodes then (s, none)
  else match s.visibleLocality.addNode n (s.node n) with
    | .error x => (s, some x)
    | .ok (id, g) =>
      let s := { s.setNode n fun v => { v with id := some id } with visibleLocality := g }
      if n ∈ s.completeEltSet.nodes then (s, none)
      else match s.completeEltSet.addNode n (s.node n) with
        | .error x => (s, some x)
        | .ok (_, g) => ({ s with completeEltSet := g }, none)

/-- `VisibleLocality.addEdge` (:79), `Locality.addEdge` (`Locality.java:97`). -/
def addEdge (e : EdgeRef) (s : St) : St :=
  if e ∈ s.visibleLocality.edges then s
  else
    let s := s.setLocalEdges (s.visibleLocality.edges ++ [e])
    (if e ∈ s.completeEltSet.edges then s else GraphEltSet.addEdge e s).countEdge e 1

/-- `VisibleLocality.removeEdge` (:87), `Locality.removeEdge` (`Locality.java:145`). -/
def removeEdge (s : St) (e : EdgeRef) : St :=
  if e ∈ s.visibleLocality.edges then
    let s := s.setLocalEdges (s.visibleLocality.edges.erase e)
    { s with edge := Function.update s.edge e { s.edge e with isVisible := false } }.countEdge e (-1)
  else s

/-- `Locality.deleteEdge` (`Locality.java:132`). -/
def deleteEdge (e : Option EdgeRef) (s : St) : St :=
  match e with
  | none => s
  | some e => GraphEltSet.deleteEdge e (removeEdge s e)

/-- `Locality.findEdge` (`Locality.java:126`). -/
def findEdge (f t : NodeRef) (s : St) : Option EdgeRef :=
  (GraphEltSet.findEdge f t s).filter (· ∈ s.visibleLocality.edges)

/-- `VisibleLocality.removeNode` (:97), `Locality.removeNode` (`Locality.java:174`). -/
def removeNode (n : NodeRef) (s : St) : St :=
  if n ∈ s.visibleLocality.nodes then
    (s.node n).edges.foldl removeEdge { s with visibleLocality := s.visibleLocality.drop n (s.node n) }
  else s

/-- `Locality.deleteNode` (`Locality.java:161`). -/
def deleteNode (n : Option NodeRef) (s : St) : St :=
  match n with
  | none => s
  | some n => GraphEltSet.deleteNode n (removeNode n s)

end VisibleLocality

/-! ## `TGPanel` -/

namespace TGPanel

/-- The first loop of `updatePartitions` (:196-204), with the indices below `i` to go. -/
def removeInvisible : Nat → St → St
  | 0, s => s
  | i + 1, s => removeInvisible i (match s.completeEltSet.edges[i]? with
    | some e => if s.isVisible e then s else VisibleLocality.deleteEdge (some e) s
    | none => s)

/-- The second loop (:207-217): the first node of each partition ID. -/
def partitions (s : St) : List NodeRef :=
  s.completeEltSet.nodes.foldl
    (fun ps n => if ps.any fun m => (s.node n).partID == (s.node m).partID then ps else ps ++ [n]) []

/-- The third loop (:218-225): an invisible edge between each two neighbours of `partitions`. -/
def buildInvisible : List NodeRef → St → St
  | a :: b :: ps, s => buildInvisible (b :: ps) (VisibleLocality.addEdge s.edgesMade (newEdge a b false s))
  | _, s => s

/-- `updatePartitions` (:182). -/
def updatePartitions (s : St) : St :=
  let s := removeInvisible s.completeEltSet.edges.length s
  buildInvisible (partitions s) s

/-- `addNode` (:427). -/
def addNode (n : NodeRef) (s : St) : St × Option Thrown :=
  match VisibleLocality.addNode n s with
  | (s, none) => (updatePartitions s, none)
  | (s, some x) => (s, some x)

/-- `addEdge` (:526, :534) of a new visible edge from `f` to `t`. -/
def addEdge (f t : NodeRef) (s : St) : St :=
  updatePartitions (VisibleLocality.addEdge s.edgesMade (newEdge f t true s))

/-- `deleteEdge` (:494). -/
def deleteEdge (e : Option EdgeRef) (s : St) : St := updatePartitions (VisibleLocality.deleteEdge e s)

/-- `deleteEdge` (:502): the edge `findEdge` finds. -/
def deleteEdgeBetween (f t : NodeRef) (s : St) : St :=
  updatePartitions (VisibleLocality.deleteEdge (VisibleLocality.findEdge f t s) s)

/-- `deleteNode` (:449). -/
def deleteNode (n : Option NodeRef) (s : St) : St := updatePartitions (VisibleLocality.deleteNode n s)

end TGPanel

/-! ## Runs -/

/-- A call. -/
inductive Input where
  | newNode (id lbl : Option String)
  | addNode (n : NodeRef)
  | addEdge (f t : NodeRef)
  | deleteEdge (e : Option EdgeRef)
  | deleteEdgeBetween (f t : NodeRef)
  | deleteNode (n : Option NodeRef)
deriving DecidableEq, Repr

/-- A constructed node that is not in the graph and has no edges: it was never added, or is as good as
new. -/
def Fresh (s : St) (n : NodeRef) : Prop :=
  n < s.nodesMade ∧ n ∉ s.completeEltSet.nodes ∧ (s.node n).edges = []

instance (s : St) (n : NodeRef) : Decidable (Fresh s n) := inferInstanceAs (Decidable (_ ∧ _))

/-- One call. Added nodes are fresh, the ends of an added edge are in the graph. -/
def step (s : St) : Input → Option St
  | .newNode id lbl => some (newNode id lbl s)
  | .addNode n => if Fresh s n then some (TGPanel.addNode n s).1 else none
  | .addEdge f t =>
    if f ∈ s.completeEltSet.nodes ∧ t ∈ s.completeEltSet.nodes then some (TGPanel.addEdge f t s) else none
  | .deleteEdge e => some (TGPanel.deleteEdge e s)
  | .deleteEdgeBetween f t => some (TGPanel.deleteEdgeBetween f t s)
  | .deleteNode n => some (TGPanel.deleteNode n s)

/-- An empty panel, before any node or edge is made. -/
def init : St where
  node := fun _ => ⟨none, none, 0, []⟩
  nodesMade := 0
  edge := fun _ => ⟨0, 0, true⟩
  edgesMade := 0
  globPartCnt := 0
  visibleEdgeCnt := fun _ => 0
  completeEltSet := {}
  visibleLocality := {}

end Topo
