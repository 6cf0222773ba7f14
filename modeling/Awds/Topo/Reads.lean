import Awds.Topo.Quality
import Awds.Topo.RemoveEdge

/-!
# What an element reads

`reads` is what `startElement` takes from the attributes of an element, in the order in which the SAX parser reports
them: an ID with what stands behind it, a `to` with the attribute before it, and nothing behind a `value` without `%`
while there is an edge in `connect`. The graph after the element is the one that `run` makes of it.
-/

namespace Topo

namespace InputParser

variable {D : Type}

/-- What is read: a node with its label, its place and `fixed`, as far as they are set, a node that goes, or the IDs of
the ends of an edge. -/
inductive Read (D : Type) where
  | node (id : String) (label : Option String) (place : Option (D × D)) (fixed : Bool)
  | remove (id : String)
  | edge (fromID toID : String)
deriving DecidableEq, Repr

/-- What the loop behind an `id` has found (:122-154). -/
structure Found (D : Type) where
  label : Option String
  x : D
  y : D
  fixed : Bool

section
variable [DecidableEq D] (env : Env D)

def Found.start : Found D := ⟨none, env.minValue, env.minValue, false⟩

omit [DecidableEq D] in
def Found.attribute (e : Found D) (a : String × String) : Found D :=
  if toLowerCase a.1 = "name" then { e with label := some a.2 }
  else if toLowerCase a.1 = "x" then { e with x := (env.newDouble a.2).getD e.x }
  else if toLowerCase a.1 = "y" then { e with y := (env.newDouble a.2).getD e.y }
  else if toLowerCase a.1 = "fixed" ∧ toLowerCase a.2 = "true" then { e with fixed := true }
  else e

/-- Where the node is put, if it is (:155-159). -/
def Found.place (e : Found D) : Option (D × D) :=
  if e.x = env.minValue ∧ e.y = env.minValue then none
  else some (if e.x = env.minValue then env.screen.1 else e.x, if e.y = env.minValue then env.screen.2 else e.y)

/-- A new node has its ID for a label. A node that nothing is set of is not read. -/
def nodeReads (ntag id : String) (rest : Attributes) : List (Read D) :=
  let e := rest.foldl (Found.attribute env) (Found.start env)
  if isNewNode ntag then [.node id (some (e.label.getD id)) (e.place env) e.fixed]
  else if e.label = none ∧ e.place env = none ∧ e.fixed = false then []
  else [.node id e.label (e.place env) e.fixed]

/-- `connected` says that there is an edge in `connect`. -/
def reads (ntag : String) : Bool → Option String → Attributes → List (Read D)
  | _, _, [] => []
  | connected, prev, (name, value) :: rest =>
    if toLowerCase name = "id" then
      if isNode ntag = true then nodeReads env ntag value rest
      else (if ntag = "remove_node" then [.remove value] else []) ++ reads ntag connected (some value) rest
    else if toLowerCase name = "to" then
      match prev with
      | none => reads ntag connected (some value) rest
      | some fromID =>
        if isEdge ntag = true then .edge fromID value :: reads ntag true (some value) rest
        else (if ntag = "remove_edge" then [.edge fromID value] else []) ++ reads ntag connected (some value) rest
    else if toLowerCase name = "value" ∧ connected = true ∧ '%' ∉ value.toList then []
    else reads ntag connected (some value) rest

end

/-! ## The graph that the reads make -/

/-- The node `n` with what was found. -/
def write (n : NodeRef) (label : Option String) (place : Option (D × D)) (fixed : Bool) (v : Viewer D) : Viewer D :=
  let v := match label with
    | none => v
    | some label => setLabel label n v
  let v := if fixed then setFixed n v else v
  match place with
  | none => v
  | some p => setLocation p.1 p.2 n v

def perform (ntag : String) (v : Viewer D) : Read D → Viewer D
  | .node id label place fixed =>
    if isNewNode ntag then write v.panel.nodesMade label place fixed (addNew id v)
    else match v.panel.completeEltSet.findNode id with
      | none => v
      | some n => write n label place fixed v
  | .remove id => removeNode id v
  | .edge fromID toID => if isEdge ntag = true then connectEdge ntag fromID toID v else removeEdge fromID toID v

/-- Nothing is done after an exception. -/
def run (ntag : String) : List (Read D) → Viewer D → Viewer D
  | [], v => v
  | r :: rs, v => if (perform ntag v r).thrown.isSome then perform ntag v r else run ntag rs (perform ntag v r)

/-- What no attribute but those that are read can change. -/
def bare (v : Viewer D) : Viewer D := { v with color := fun _ => defaultColor, pixelForOneMeter := 0 }

/-- The same graph, with the same object for each node and each edge. -/
structure SameCore (v w : Viewer D) : Prop where
  panel : v.panel = w.panel
  location : v.location = w.location
  fixed : v.fixed = w.fixed

variable {v w u : Viewer D} {ntag : String}

theorem SameCore.refl (v : Viewer D) : SameCore v v := ⟨rfl, rfl, rfl⟩

theorem SameCore.trans (h : SameCore v w) (h' : SameCore w u) : SameCore v u :=
  ⟨h.panel.trans h'.panel, h.location.trans h'.location, h.fixed.trans h'.fixed⟩

theorem bare_eq_iff : bare v = bare w ↔ SameCore v w ∧ v.connect = w.connect ∧ v.nodeCnt = w.nodeCnt ∧
    v.edgeCnt = w.edgeCnt ∧ v.nullEdge = w.nullEdge ∧ v.thrown = w.thrown := by
  simp only [bare, Viewer.mk.injEq, true_and]
  exact ⟨fun h => ⟨⟨h.1, h.2.1, h.2.2.1⟩, h.2.2.2⟩, fun h => ⟨h.1.panel, h.1.location, h.1.fixed, h.2⟩⟩

theorem bare_thrown (h : bare v = bare w) : v.thrown = w.thrown := (bare_eq_iff.1 h).2.2.2.2.2

theorem bare_connect (h : bare v = bare w) : v.connect = w.connect := (bare_eq_iff.1 h).2.1

theorem addNew_bare (id : String) (v : Viewer D) : addNew id (bare v) = bare (addNew id v) := by
  unfold addNew bare
  dsimp only
  split <;> rfl

theorem endNode_bare (found : Option NodeRef) (id : String) (v : Viewer D) :
    endNode found id (bare v) = ((endNode found id v).1, bare (endNode found id v).2) := by
  cases found with
  | none => exact congrArg (Prod.mk _) (addNew_bare id v)
  | some n => rfl

theorem endNodes_bare (fromID toID : String) (v : Viewer D) : endNodes fromID toID (bare v) =
    ((endNodes fromID toID v).1, (endNodes fromID toID v).2.1, bare (endNodes fromID toID v).2.2) := by
  have hset : (bare v).panel = v.panel := rfl
  unfold endNodes
  rw [hset, endNode_bare]
  dsimp only
  rw [endNode_bare]

theorem connectEdge_bare (ntag fromID toID : String) (v : Viewer D) :
    bare (connectEdge ntag fromID toID (bare v)) = bare (connectEdge ntag fromID toID v) := by
  have hadd : ∀ w w' : Viewer D, bare w = bare w' → bare (addConnect w) = bare (addConnect w') := by
    intro w w' h
    obtain ⟨hcore, hconnect, hn, he, hnull, ht⟩ := bare_eq_iff.1 h
    unfold addConnect
    rw [hconnect]
    split
    · exact bare_eq_iff.2 ⟨⟨hcore.panel, hcore.location, hcore.fixed⟩, rfl, hn, he, rfl, rfl⟩
    · rename_i e _
      exact bare_eq_iff.2 ⟨⟨congrArg (TGPanel.addMade e) hcore.panel, hcore.location, hcore.fixed⟩, rfl, hn, he, hnull, ht⟩
  unfold connectEdge
  rw [endNodes_bare]
  dsimp only
  refine hadd _ _ ?_
  split <;> rfl

theorem removeEdge_bare (fromID toID : String) (v : Viewer D) :
    bare (removeEdge fromID toID (bare v)) = bare (removeEdge fromID toID v) := by
  unfold removeEdge
  have hset : (bare v).panel = v.panel := rfl
  rw [hset]
  split <;> rfl

theorem write_bare (n : NodeRef) (label : Option String) (place : Option (D × D)) (fixed : Bool) (v : Viewer D) :
    write n label place fixed (bare v) = bare (write n label place fixed v) := by
  cases label <;> cases place <;> cases fixed <;> rfl

theorem perform_bare (ntag : String) (v : Viewer D) (r : Read D) :
    bare (perform ntag (bare v) r) = bare (perform ntag v r) := by
  have hset : (bare v).panel = v.panel := rfl
  cases r with
  | node id label place fixed =>
    simp only [perform, hset, addNew_bare, write_bare]
    split
    · rfl
    · split <;> rfl
  | remove id => rfl
  | edge fromID toID =>
    unfold perform
    dsimp only
    split
    · exact connectEdge_bare ntag fromID toID v
    · exact removeEdge_bare fromID toID v

/-- What is read is all that matters. -/
theorem perform_congr (ntag : String) (h : bare v = bare w) (r : Read D) :
    bare (perform ntag v r) = bare (perform ntag w r) := by
  rw [← perform_bare, h, perform_bare]

/-! ## Nodes -/

theorem setLabel_write (label : String) (n : NodeRef) (old : Option String) (fixed : Bool) (v : Viewer D) :
    setLabel label n (write n old none fixed v) = write n (some label) none fixed v := by
  cases old <;> cases fixed <;> simp [write, setLabel, setFixed, St.setNode]

theorem setFixed_write (n : NodeRef) (label : Option String) (fixed : Bool) (v : Viewer D) :
    setFixed n (write n label none fixed v) = write n label none true v := by
  cases label <;> cases fixed <;> simp [write, setFixed]

/-- The label of a new node is its ID. -/
theorem addNew_label (h : Settled v.panel) (id : String) :
    ((addNew id v).panel.node v.panel.nodesMade).lbl = some id := by
  have hk := h.kept.newNode (some id) (some id)
  have hnode : (newNode (some id) (some id) v.panel).node v.panel.nodesMade =
      ⟨some id, some id, partIDOf v.panel.globPartCnt, []⟩ := by simp [newNode]
  have hnot : v.panel.nodesMade ∉ v.panel.completeEltSet.nodes := fun hn => Nat.lt_irrefl _ (h.made.nodes _ hn)
  have hf : Fresh (newNode (some id) (some id) v.panel) v.panel.nodesMade :=
    ⟨Nat.lt_succ_self _, hnot, by rw [hnode]⟩
  have hno : ∀ e ∈ v.panel.completeEltSet.edges, ¬(newNode (some id) (some id) v.panel).touches v.panel.nodesMade e :=
    fun e he ht => Nat.lt_irrefl _ (h.made.touches_lt (h.kept.shape.edges e he).1 ht)
  have hadd := hk.addNode hf ⟨id, by rw [hnode]⟩ hno
  have heq := hk.addNode_eq hnot (by rw [hnode])
  rw [addNew_panel, TGPanel.addNode]
  rw [heq] at hadd ⊢
  by_cases hfree : (newNode (some id) (some id) v.panel).completeEltSet.findNode id = none
  · rw [hfree] at hadd ⊢
    simp only [Option.isNone_none, if_true] at hadd ⊢
    exact (hadd.redraw.id _).2.trans (congrArg Node.lbl hnode)
  · rw [Option.isNone_eq_false_iff.2 (Option.isSome_iff_ne_none.2 hfree)]
    exact congrArg Node.lbl hnode

section
variable [DecidableEq D] {env : Env D}

/-- The loop behind an `id` writes what it finds. -/
theorem nodeAttributes_write (n : NodeRef) : ∀ (rest : Attributes) (e : Found D) (v : Viewer D),
    nodeAttributes env (some n) rest e.x e.y (write n e.label none e.fixed v) =
      write n (rest.foldl (Found.attribute env) e).label ((rest.foldl (Found.attribute env) e).place env)
        (rest.foldl (Found.attribute env) e).fixed v
  | [], e, v => by
    rw [nodeAttributes, List.foldl_nil, Found.place]
    split
    · rfl
    · rfl
  | (name, value) :: rest, e, v => by
    rw [List.foldl_cons, ← nodeAttributes_write n rest, nodeAttributes, Found.attribute]
    split
    · rw [deref, setLabel_write]
    · split
      · rfl
      · split
        · rfl
        · split
          · rw [deref, setFixed_write]
          · rfl

/-- A node that is not there takes nothing. -/
theorem nodeAttributes_absent (rest : Attributes) (x y : D) (v : Viewer D) :
    SameCore (nodeAttributes env none rest x y v) v :=
  nodeAttributes_rule env (P := fun w => SameCore w v) none (fun _ _ _ hn => nomatch hn) (fun _ _ hn => nomatch hn)
    (fun _ _ _ _ hn => nomatch hn) (fun _ _ h => ⟨h.panel, h.location, h.fixed⟩) rest x y v (.refl v)

omit [DecidableEq D] in
theorem sameCore_of_bare (h : bare v = bare w) : SameCore v w := (bare_eq_iff.1 h).1

omit [DecidableEq D] in
theorem run_singleton (ntag : String) (r : Read D) (v : Viewer D) : run ntag [r] v = perform ntag v r := by
  unfold run
  split
  · rfl
  · rfl

/-- The element of a node. -/
theorem nodeElement_reads (h : Settled v.panel) (ntag id : String) (rest : Attributes) :
    SameCore (nodeElement env ntag id rest v) (run ntag (nodeReads env ntag id rest) v) := by
  have hwrite : ∀ n (w : Viewer D), nodeAttributes env (some n) rest env.minValue env.minValue w =
      write n (rest.foldl (Found.attribute env) (Found.start env)).label
        ((rest.foldl (Found.attribute env) (Found.start env)).place env)
        (rest.foldl (Found.attribute env) (Found.start env)).fixed w := fun n w =>
    nodeAttributes_write n rest (Found.start env) w
  unfold nodeElement nodeReads
  generalize rest.foldl (Found.attribute env) (Found.start env) = e at hwrite
  dsimp only
  split
  · rename_i hnew
    rw [hwrite, run_singleton, perform, if_pos hnew]
    cases hl : e.label with
    | some label => exact .refl _
    | none =>
      -- the label is the ID already
      have hlabel : setLabel id v.panel.nodesMade (addNew id v) = addNew id v := by
        have hset : ((addNew id v).panel.setNode v.panel.nodesMade fun x => { x with lbl := some id }) =
            (addNew id v).panel := by
          have hx : ({ (addNew id v).panel.node v.panel.nodesMade with lbl := some id } : Node) =
              (addNew id v).panel.node v.panel.nodesMade := by rw [← addNew_label h id]
          rw [St.setNode, hx, Function.update_eq_self]
        rw [setLabel, hset]
      have hnone : write v.panel.nodesMade none (e.place env) e.fixed (addNew id v) =
          write v.panel.nodesMade (some id) (e.place env) e.fixed (addNew id v) := by
        simp only [write, hlabel]
      rw [Option.getD_none, hnone]
      exact .refl _
  · rename_i hold
    cases hfind : v.panel.completeEltSet.findNode id with
    | none =>
      refine (nodeAttributes_absent rest env.minValue env.minValue v).trans ?_
      split
      · exact .refl v
      · rw [run_singleton, perform, if_neg hold, hfind]
        exact .refl v
    | some n =>
      rw [hwrite]
      split
      · rename_i hidle
        rw [hidle.1, hidle.2.1, hidle.2.2]
        exact .refl v
      · rw [run_singleton, perform, if_neg hold, hfind]
        exact .refl _

/-! ## Any element -/

omit [DecidableEq D] in
theorem run_congr (ntag : String) : ∀ (rs : List (Read D)) {v w : Viewer D}, bare v = bare w →
    bare (run ntag rs v) = bare (run ntag rs w)
  | [], _, _, h => h
  | r :: rs, v, w, h => by
    have hp := perform_congr ntag h r
    rw [run, run, bare_thrown hp]
    split
    · exact hp
    · exact run_congr ntag rs hp

omit [DecidableEq D] in
theorem run_cons (ntag : String) (r : Read D) (rs : List (Read D)) {v : Viewer D} (ht : (perform ntag v r).thrown = none) :
    run ntag (r :: rs) v = run ntag rs (perform ntag v r) := by
  rw [run, ht]
  rfl

variable (env) in
/-- One round of the loop takes `v` to `b`: nothing is read, or a read is performed and the loop goes on or ends with an
exception, or it ends with one that nothing is read of. -/
inductive Round (ntag value : String) (rest : Attributes) (v b : Viewer D) : List (Read D) → Prop where
  | idle (h : bare b = bare v) : Round ntag value rest v b (reads env ntag b.connect.isSome (some value) rest)
  | read (r : Read D) (h : bare b = bare (perform ntag v r)) (hs : Settled b.panel) (ht : b.thrown = none) :
    Round ntag value rest v b (r :: reads env ntag b.connect.isSome (some value) rest)
  | thrown (r : Read D) (rs : List (Read D)) (h : bare b = bare (perform ntag v r)) (ht : b.thrown.isSome = true) :
    Round ntag value rest v b (r :: rs)
  | ended (h : SameCore b v) (ht : b.thrown.isSome = true) : Round ntag value rest v b []

theorem round_skip {value : String} {rest : Attributes} {b : Viewer D} (h : bare b = bare v) :
    Round env ntag value rest v b (reads env ntag v.connect.isSome (some value) rest) := by
  rw [← bare_connect h]
  exact .idle h

theorem round_removeNode (hs : Settled v.panel) (ht : v.thrown = none) (value : String) (rest : Attributes) :
    Round env ntag value rest v (removeNode value v)
      (.remove value :: reads env ntag v.connect.isSome (some value) rest) :=
  .read (.remove value) rfl (removeNode_settled hs value) ht

theorem round_connectEdge (hs : Settled v.panel) (hedge : isEdge ntag = true) (fromID value : String) (rest : Attributes) :
    Round env ntag value rest v (connectEdge ntag fromID value v)
      (.edge fromID value :: reads env ntag true (some value) rest) := by
  have hperform : perform ntag v (.edge fromID value) = connectEdge ntag fromID value v := if_pos hedge
  cases ht : (connectEdge ntag fromID value v).thrown with
  | some x => exact .thrown _ _ (by rw [hperform]) (by rw [ht]; rfl)
  | none =>
    have hconnect : (connectEdge ntag fromID value v).connect.isSome = true := by
      have hto : toLowerCase "to" = "to" := by decide
      have hb : attributeBranch env ntag (some fromID) "to" value v = connectEdge ntag fromID value v := by
        rw [attributeBranch.eq_def, if_neg (by decide), if_pos hto]
        exact if_pos hedge
      have hc := attributeBranch_connect env ntag (some fromID) "to" value (v := v) (by rw [hb]; exact ht)
      rw [if_pos ⟨hedge, rfl, hto⟩, hb] at hc
      obtain ⟨e, he⟩ := hc
      rw [he]
      rfl
    rw [← hconnect]
    exact .read _ (by rw [hperform]) (connectEdge_settled hs ntag fromID value) ht

theorem round_removeEdge (hs : Settled v.panel) (ht : v.thrown = none) (hedge : isEdge ntag ≠ true) (fromID value : String)
    (rest : Attributes) : Round env ntag value rest v (removeEdge fromID value v)
      (.edge fromID value :: reads env ntag v.connect.isSome (some value) rest) := by
  have hperform : perform ntag v (.edge fromID value) = removeEdge fromID value v := if_neg hedge
  have hthrown : (removeEdge fromID value v).thrown = v.thrown := by
    unfold removeEdge
    split <;> rfl
  rw [← removeEdge_connect fromID value]
  exact .read _ (by rw [hperform]) (removeEdge_settled hs fromID value) (hthrown.trans ht)

theorem round_quality (value : String) (rest : Attributes) : Round env ntag value rest v (quality env value v)
    (if v.connect.isSome = true ∧ '%' ∉ value.toList then [] else reads env ntag v.connect.isSome (some value) rest) := by
  split
  · rename_i hn
    obtain ⟨e, he⟩ := Option.isSome_iff_exists.1 hn.1
    have hq : quality env value v = { v with thrown := some .stringIndexOutOfBounds } := by
      rw [quality, he]
      exact if_neg hn.2
    rw [hq]
    exact .ended ⟨rfl, rfl, rfl⟩ rfl
  · rename_i hn
    refine round_skip ?_
    unfold quality
    split
    · rfl
    · rename_i e he
      have hp : '%' ∈ value.toList := by
        by_contra hp
        exact hn ⟨by rw [he]; rfl, hp⟩
      rw [if_pos hp]
      rfl

variable (env) in
/-- Any round but the one of the `id` of a node. -/
theorem attributeBranch_round (hs : Settled v.panel) (ht : v.thrown = none) (prev : Option String) (name value : String)
    (rest : Attributes) (hidn : ¬(toLowerCase name = "id" ∧ isNode ntag = true)) :
    Round env ntag value rest v (attributeBranch env ntag prev name value v)
      (reads env ntag v.connect.isSome prev ((name, value) :: rest)) := by
  unfold attributeBranch reads
  by_cases hid : toLowerCase name = "id"
  · rw [if_pos hid, if_pos hid, if_neg fun hnode => hidn ⟨hid, hnode⟩]
    by_cases hrem : ntag = "remove_node"
    · rw [if_pos hrem, if_pos hrem]
      exact round_removeNode hs ht value rest
    · rw [if_neg hrem, if_neg hrem]
      exact round_skip rfl
  rw [if_neg hid, if_neg hid]
  by_cases hto : toLowerCase name = "to"
  · rw [if_pos hto, if_pos hto]
    cases prev with
    | none => exact round_skip rfl
    | some fromID =>
      dsimp only
      by_cases hedge : isEdge ntag = true
      · rw [if_pos hedge, if_pos hedge]
        exact round_connectEdge hs hedge fromID value rest
      rw [if_neg hedge, if_neg hedge]
      by_cases hrem : ntag = "remove_edge"
      · rw [if_pos hrem, if_pos hrem]
        exact round_removeEdge hs ht hedge fromID value rest
      · rw [if_neg hrem, if_neg hrem]
        exact round_skip rfl
  rw [if_neg hto, if_neg hto]
  by_cases hval : toLowerCase name = "value"
  · rw [if_pos hval]
    simp only [hval, true_and]
    exact round_quality value rest
  · have hno : ¬(toLowerCase name = "value" ∧ v.connect.isSome = true ∧ '%' ∉ value.toList) := fun hn => hval hn.1
    rw [if_neg hval, if_neg hno]
    refine round_skip ?_
    split
    · rfl
    · rfl

/-- The graph behind the loop over the attributes is the one of the reads, by induction on the attributes. -/
theorem attributes_reads : ∀ (attrs : Attributes) (prev : Option String) (v u : Viewer D), Settled v.panel →
    v.thrown = none → bare v = bare u →
    SameCore (attributes env ntag prev attrs v) (run ntag (reads env ntag v.connect.isSome prev attrs) u)
  | [], _, v, u, _, _, h => sameCore_of_bare h
  | (name, value) :: rest, prev, v, u, hs, ht, h => by
    rw [attributes]
    by_cases hidn : toLowerCase name = "id" ∧ isNode ntag = true
    · unfold reads
      rw [if_pos hidn, if_pos hidn.1, if_pos hidn.2]
      exact (nodeElement_reads hs ntag value rest).trans (sameCore_of_bare (run_congr ntag _ h))
    rw [if_neg hidn]
    have hround := attributeBranch_round env hs ht prev name value rest hidn
    generalize attributeBranch env ntag prev name value v = b at hround ⊢
    generalize reads env ntag v.connect.isSome prev ((name, value) :: rest) = rs at hround ⊢
    dsimp only
    cases hround with
    | idle hb =>
      rw [bare_thrown hb, ht, if_neg (by decide)]
      exact attributes_reads rest (some value) _ u (by rw [(sameCore_of_bare hb).panel]; exact hs) ((bare_thrown hb).trans ht)
        (hb.trans h)
    | read r hb hbs hbt =>
      have hp := hb.trans (perform_congr ntag h r)
      rw [hbt, if_neg (by decide), run_cons ntag _ _ ((bare_thrown hp).symm.trans hbt)]
      exact attributes_reads rest (some value) _ _ hbs hbt hp
    | thrown r rs hb hbt =>
      have hp := hb.trans (perform_congr ntag h r)
      rw [if_pos hbt, run, ← bare_thrown hp, if_pos hbt]
      exact sameCore_of_bare hp
    | ended hb hbt =>
      rw [if_pos hbt]
      exact hb.trans (sameCore_of_bare h)

variable (env) in
/-- The graph behind a start tag that does not empty the panel. -/
theorem startElement_reads (h : Settled v.panel) (ht : v.thrown = none) {qName : String}
    (hq : toLowerCase qName ≠ "topology") (attrs : Attributes) : SameCore (startElement env qName attrs v)
      (run (toLowerCase qName) (reads env (toLowerCase qName) v.connect.isSome none attrs) v) := by
  rw [startElement, if_neg hq]
  exact attributes_reads attrs none v v h ht rfl

end

/-! ## Nodes that go -/

/-- The nodes with these IDs have gone, and the edges at them. -/
structure Without (ids : List String) (v w : Viewer D) : Prop where
  settled : Settled w.panel
  nodes : w.panel.completeEltSet.nodes =
    v.panel.completeEltSet.nodes.filter fun n => ∀ id ∈ ids, (v.panel.node n).id ≠ some id
  shown : w.panel.shown = v.panel.shown.filter fun e =>
    ∀ n ∈ v.panel.completeEltSet.nodes, v.panel.touches n e → ∀ id ∈ ids, (v.panel.node n).id ≠ some id
  name : ∀ n, (w.panel.node n).id = (v.panel.node n).id ∧ (w.panel.node n).lbl = (v.panel.node n).lbl
  ends : ∀ e ∈ w.panel.shown, (w.panel.edge e).getFrom = (v.panel.edge e).getFrom ∧
    (w.panel.edge e).getTo = (v.panel.edge e).getTo
  location : w.location = v.location
  fixed : w.fixed = v.fixed

theorem Without.refl (h : Settled v.panel) : Without [] v v := by
  refine ⟨h, ?_, ?_, fun _ => ⟨rfl, rfl⟩, fun _ _ => ⟨rfl, rfl⟩, rfl, rfl⟩
  · simp
  · simp

theorem removeNode_without (h : Settled v.panel) (id : String) : Without [id] v (removeNode id v) := by
  have hs := removeNode_settled h id
  unfold removeNode at hs ⊢
  cases hf : v.panel.completeEltSet.findNode id with
  | none =>
    rw [hf] at hs
    have hno : ∀ n ∈ v.panel.completeEltSet.nodes, (v.panel.node n).id ≠ some id := by
      intro n hn hid
      rw [(h.made.registered.findNode id n).2 ⟨hn, hid⟩] at hf
      cases hf
    refine ⟨hs, ?_, ?_, fun _ => ⟨rfl, rfl⟩, fun _ _ => ⟨rfl, rfl⟩, rfl, rfl⟩
    · exact (List.filter_eq_self.2 fun n hn => by simpa using hno n hn).symm
    · exact (List.filter_eq_self.2 fun e _ => by simpa using fun n hn _ => hno n hn).symm
  | some n =>
    rw [hf] at hs
    obtain ⟨hn, hid⟩ := (h.made.registered.findNode id n).1 hf
    have hname : ∀ m ∈ v.panel.completeEltSet.nodes, (v.panel.node m).id = some id ↔ m = n := by
      intro m hm
      constructor
      · intro hmid
        have hfm := (h.made.registered.findNode id m).2 ⟨hm, hmid⟩
        exact Option.some.inj (hfm.symm.trans hf)
      · rintro rfl
        exact hid
    have hd := h.kept.deleteNode hn
    have hr := hd.kept.redraw
    have hshown := hr.shown.trans hd.shown
    refine ⟨hs, ?_, ?_, fun m => ?_, fun e he => ?_, rfl, rfl⟩
    · refine (hr.nodes.trans hd.nodes).trans ?_
      rw [h.made.sound.nodup.2.2.erase_eq_filter]
      refine List.filter_congr fun m hm => ?_
      rw [Bool.eq_iff_iff]
      simpa using (not_congr (hname m hm)).symm
    · refine hshown.trans (List.filter_congr fun e _ => ?_)
      rw [← decide_not, decide_eq_decide]
      constructor
      · intro ht m hm hmt k hk hmid
        rw [List.mem_singleton.1 hk] at hmid
        exact ht ((hname m hm).1 hmid ▸ hmt)
      · exact fun hall ht => hall n hn ht id (List.mem_singleton_self _) hid
    · exact ⟨(hr.id m).1.trans (hd.id m).1, (hr.id m).2.trans (hd.id m).2⟩
    · have hedge := hr.edge e (by rw [← hr.shown]; exact he)
      exact ⟨(congrArg Edge.getFrom hedge).trans (hd.edge e).1, (congrArg Edge.getTo hedge).trans (hd.edge e).2⟩

theorem Without.trans {ids ids' : List String} (h : Without ids v w) (h' : Without ids' w u) : Without (ids ++ ids') v u := by
  have htouch : ∀ n, ∀ e ∈ w.panel.shown, w.panel.touches n e ↔ v.panel.touches n e := by
    intro n e he
    unfold St.touches
    rw [(h.ends e he).1, (h.ends e he).2]
  refine ⟨h'.settled, ?_, ?_, fun n => ⟨(h'.name n).1.trans (h.name n).1, (h'.name n).2.trans (h.name n).2⟩, fun e he => ?_,
    h'.location.trans h.location, h'.fixed.trans h.fixed⟩
  · rw [h'.nodes, h.nodes, List.filter_filter]
    refine List.filter_congr fun n _ => ?_
    rw [Bool.eq_iff_iff]
    simp only [Bool.and_eq_true, decide_eq_true_eq, (h.name n).1, List.forall_mem_append, and_comm]
  · rw [h'.shown]
    have hcongr : w.panel.shown.filter (fun e => decide (∀ n ∈ w.panel.completeEltSet.nodes, w.panel.touches n e →
        ∀ id ∈ ids', (w.panel.node n).id ≠ some id)) = w.panel.shown.filter fun e =>
          decide (∀ n ∈ v.panel.completeEltSet.nodes, v.panel.touches n e → ∀ id ∈ ids', (v.panel.node n).id ≠ some id) := by
      refine List.filter_congr fun e he => ?_
      rw [decide_eq_decide]
      have hstay : ∀ n ∈ v.panel.completeEltSet.nodes, v.panel.touches n e → ∀ id ∈ ids, (v.panel.node n).id ≠ some id := by
        have he' := he
        rw [h.shown] at he'
        exact of_decide_eq_true (List.mem_filter.1 he').2
      constructor
      · intro hall n hn ht
        rw [← (h.name n).1]
        refine hall n ?_ ((htouch n e he).2 ht)
        rw [h.nodes]
        exact List.mem_filter.2 ⟨hn, decide_eq_true (hstay n hn ht)⟩
      · intro hall n hn ht
        rw [(h.name n).1]
        rw [h.nodes] at hn
        exact hall n (List.mem_filter.1 hn).1 ((htouch n e he).1 ht)
    rw [hcongr, h.shown, List.filter_filter]
    refine List.filter_congr fun e _ => ?_
    rw [Bool.eq_iff_iff]
    simp only [Bool.and_eq_true, decide_eq_true_eq, List.forall_mem_append]
    exact ⟨fun hb n hn ht => ⟨hb.2 n hn ht, hb.1 n hn ht⟩,
      fun hb => ⟨fun n hn ht => (hb n hn ht).2, fun n hn ht => (hb n hn ht).1⟩⟩
  · have hw : e ∈ w.panel.shown := by
      rw [h'.shown] at he
      exact (List.mem_filter.1 he).1
    exact ⟨(h'.ends e he).1.trans (h.ends e hw).1, (h'.ends e he).2.trans (h.ends e hw).2⟩

/-- A run of removals. -/
theorem run_without (hs : Settled v.panel) (ht : v.thrown = none) : ∀ ids : List String,
    Without ids v (run ntag (ids.map .remove) v) := by
  intro ids
  induction ids generalizing v with
  | nil => exact .refl hs
  | cons id ids ih =>
    have h1 := removeNode_without hs id
    rw [List.map_cons, run_cons ntag _ _ (by exact ht)]
    exact h1.trans (ih h1.settled ht)

/-! ## The same graph -/

/-- The same nodes, with their labels, places and `fixed`, and the same edges between them. -/
structure SameGraph (v w : Viewer D) : Prop where
  nodes : (v.panel.completeEltSet.nodes.map v.nodeRecord).Perm (w.panel.completeEltSet.nodes.map w.nodeRecord)
  edges : (v.panel.shown.map fun e => (v.fromID e, v.toID e)).Perm (w.panel.shown.map fun e => (w.fromID e, w.toID e))

theorem SameGraph.symm (h : SameGraph v w) : SameGraph w v := ⟨h.nodes.symm, h.edges.symm⟩

theorem SameGraph.trans (h : SameGraph v w) (h' : SameGraph w u) : SameGraph v u :=
  ⟨h.nodes.trans h'.nodes, h.edges.trans h'.edges⟩

theorem SameCore.sameGraph (h : SameCore v w) : SameGraph v w := by
  have hrecord : v.nodeRecord = w.nodeRecord := by
    unfold Viewer.nodeRecord
    rw [h.panel, h.location, h.fixed]
  have hends : (fun e => (v.fromID e, v.toID e)) = fun e => (w.fromID e, w.toID e) := by
    unfold Viewer.fromID Viewer.toID
    rw [h.panel]
  exact ⟨by rw [hrecord, h.panel], by rw [hends, h.panel]⟩

theorem Without.sameGraph {ids ids' : List String} (h : Without ids v w) (h' : Without ids' v u)
    (hids : ∀ id, id ∈ ids ↔ id ∈ ids') : SameGraph w u := by
  have hnodes : w.panel.completeEltSet.nodes = u.panel.completeEltSet.nodes := by
    rw [h.nodes, h'.nodes]
    simp only [hids]
  have hshown : w.panel.shown = u.panel.shown := by
    rw [h.shown, h'.shown]
    simp only [hids]
  have hrecord : w.nodeRecord = u.nodeRecord := by
    funext n
    rw [Viewer.nodeRecord, Viewer.nodeRecord, (h.name n).1, (h.name n).2, (h'.name n).1, (h'.name n).2, h.location,
      h'.location, h.fixed, h'.fixed]
  refine ⟨by rw [hnodes, hrecord], List.Perm.of_eq ?_⟩
  rw [← hshown]
  refine List.map_congr_left fun e he => ?_
  have he' : e ∈ u.panel.shown := hshown ▸ he
  rw [Viewer.fromID, Viewer.toID, Viewer.fromID, Viewer.toID, (h.ends e he).1, (h.ends e he).2, (h'.ends e he').1,
    (h'.ends e he').2, (h.name _).1, (h.name _).1, (h'.name _).1, (h'.name _).1]

section
variable [DecidableEq D] (env : Env D)

/-- Both orders read the same; which of several nodes is removed first is no difference. -/
def SameReads (ntag : String) (connected : Bool) (attrs attrs' : Attributes) : Prop :=
  if ntag = "remove_node" then
    (∀ r ∈ reads env ntag connected none attrs, r ∈ reads env ntag connected none attrs') ∧
      ∀ r ∈ reads env ntag connected none attrs', r ∈ reads env ntag connected none attrs
  else reads env ntag connected none attrs = reads env ntag connected none attrs'

instance (ntag : String) (connected : Bool) (attrs attrs' : Attributes) :
    Decidable (SameReads env ntag connected attrs attrs') :=
  inferInstanceAs (Decidable (if ntag = "remove_node" then _ ∧ _ else _))

theorem reads_remove : ∀ (attrs : Attributes) (connected : Bool) (prev : Option String),
    ∃ ids : List String, reads env "remove_node" connected prev attrs = ids.map .remove
  | [], _, _ => ⟨[], rfl⟩
  | (name, value) :: rest, connected, prev => by
    obtain ⟨ids, hids⟩ := reads_remove rest connected (some value)
    unfold reads
    split
    · rw [if_neg (by decide), if_pos rfl, hids]
      exact ⟨value :: ids, rfl⟩
    · split
      · cases prev with
        | none => exact ⟨ids, hids⟩
        | some fromID =>
          dsimp only
          rw [if_neg (by decide), if_neg (by decide)]
          exact ⟨ids, hids⟩
      · split
        · exact ⟨[], rfl⟩
        · exact ⟨ids, hids⟩

variable {env}

/-- **Two orders that read the same give the same graph, on any graph that can be built.** -/
theorem sameGraph_of_sameReads (hs : Settled v.panel) (ht : v.thrown = none) {qName : String}
    (hq : toLowerCase qName ≠ "topology") {attrs attrs' : Attributes}
    (h : SameReads env (toLowerCase qName) v.connect.isSome attrs attrs') :
    SameGraph (startElement env qName attrs v) (startElement env qName attrs' v) := by
  have hreads := startElement_reads env hs ht hq
  refine (hreads attrs).sameGraph.trans (SameGraph.trans ?_ (hreads attrs').sameGraph.symm)
  unfold SameReads at h
  by_cases hrem : toLowerCase qName = "remove_node"
  · rw [if_pos hrem] at h
    rw [hrem] at h ⊢
    obtain ⟨ids, hids⟩ := reads_remove env attrs v.connect.isSome none
    obtain ⟨ids', hids'⟩ := reads_remove env attrs' v.connect.isSome none
    rw [hids, hids'] at h ⊢
    refine (run_without hs ht ids).sameGraph (run_without hs ht ids') fun id => ?_
    have hmem : ∀ ids : List String, (Read.remove id : Read D) ∈ ids.map Read.remove ↔ id ∈ ids := fun ids =>
      List.mem_map_of_injective fun _ _ heq => Read.remove.inj heq
    rw [← hmem ids, ← hmem ids']
    exact ⟨h.1 _, h.2 _⟩
  · rw [if_neg hrem] at h
    rw [h]
    exact (SameCore.refl _).sameGraph

end

end InputParser

end Topo
