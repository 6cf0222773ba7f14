import Awds.Topo.Reads

/-!
# The order of the attributes

Two orders of the attributes of an element give the same graph on every graph if they read the same
(`sameGraph_of_sameReads`). Here are the graphs on which they give another one if they do not.
-/

namespace Topo

namespace InputParser

variable {D : Type} [DecidableEq D] {env : Env D} {v w : Viewer D} {ntag : String} {c : Bool}

/-- On any graph that can be built, wherever new nodes are put, both orders give the same graph. -/
def OrderFree (env : Env D) (qName : String) (attrs attrs' : Attributes) (connected : Bool) : Prop :=
  ∀ (random : NodeRef → D × D) (v : Viewer D),
    Lts.Reach (Viewer.edit { env with random := random }) Viewer.Editing (empty { env with random := random }) v →
    v.thrown = none → v.connect.isSome = connected →
    SameGraph (startElement { env with random := random } qName attrs v)
      (startElement { env with random := random } qName attrs' v)

/-! ## Graphs to try -/

/-- A graph that elements have made, none of which places or fixes a node. -/
structure Plain (env : Env D) (connected : Bool) (v : Viewer D) : Prop where
  reach : Lts.Reach (Viewer.edit env) Viewer.Editing (empty env) v
  thrown : v.thrown = none
  connect : v.connect.isSome = connected
  location : v.location = env.random
  fixed : v.fixed = fun _ => false

namespace Plain

theorem settled (h : Plain env c v) : Settled v.panel := Viewer.reach_settled env h.reach

theorem ready (h : Plain env c v) : Ready env v :=
  ⟨h.settled.kept, h.thrown, fun n _ => ⟨by rw [h.fixed], by rw [h.location]⟩⟩

theorem empty (env : Env D) : Plain env false (empty env) := ⟨.refl, rfl, rfl, rfl, rfl⟩

/-- One more event. -/
theorem event (h : Plain env c v) (ev : Event) {c' : Bool} (heq : handle env ev v = w) (ht : w.thrown = none)
    (hc : w.connect.isSome = c') (hl : w.location = v.location) (hf : w.fixed = v.fixed) : Plain env c' w := by
  refine ⟨h.reach.tail (i := .event ev) trivial ?_, ht, hc, hl.trans h.location, hf.trans h.fixed⟩
  simp only [Viewer.edit, step]
  rw [h.thrown, if_neg (by decide), heq]

theorem edge (h : Plain env c v) (fromID toID : String) :
    Plain env true (startElement env "edge" [("from", fromID), ("to", toID)] v) := by
  have hf := endNodes_frame fromID toID v
  have heq : startElement env "edge" [("from", fromID), ("to", toID)] v = joined fromID toID v :=
    startElement_edge h.thrown fromID toID
  rw [heq]
  exact h.event (.startElement "edge" [("from", fromID), ("to", toID)]) heq (hf.thrown.trans h.thrown) rfl hf.location
    hf.fixed

theorem endEdge (h : Plain env c v) : Plain env false (endElement "edge" v) := by
  have heq : endElement "edge" v = { v with connect := none } := by
    have htag : toLowerCase "edge" = "edge" := by decide
    simp only [endElement, htag, true_or, if_true]
  rw [heq]
  exact h.event (.endElement "edge") heq h.thrown rfl rfl rfl

theorem topology (h : Plain env c v) : Plain env c (startElement env "topology" [] v) := by
  have heq : startElement env "topology" [] v = { v with panel := TGPanel.clearAll v.panel } := by
    have htag : toLowerCase "topology" = "topology" := by decide
    rw [startElement, if_pos htag]
  rw [heq]
  exact h.event (.startElement "topology" []) heq h.thrown h.connect rfl rfl

end Plain

variable (env) in
/-- A node with a label. -/
theorem startElement_named (id label : String) (v : Viewer D) :
    startElement env "node" [("id", id), ("name", label)] v = setLabel label v.panel.nodesMade (addNew id v) := by
  have hname : toLowerCase "name" = "name" := by decide
  rw [startElement_node, nodeAttributes, if_pos hname, deref, nodeAttributes, if_pos ⟨rfl, rfl⟩]

theorem Plain.named (h : Plain env c v) (id label : String) :
    Plain env c (startElement env "node" [("id", id), ("name", label)] v) := by
  have hf := addNew_frame id v
  have heq := startElement_named env id label v
  rw [heq]
  refine h.event (.startElement "node" [("id", id), ("name", label)]) heq (hf.thrown.trans h.thrown) ?_ hf.location hf.fixed
  exact (congrArg Option.isSome hf.connect).trans h.connect

/-- Nothing is drawn. -/
structure Blank (env : Env D) (c : Bool) (v : Viewer D) : Prop extends Plain env c v where
  nodes : v.panel.completeEltSet.nodes = []
  shown : v.panel.shown = []

/-- A graph without nodes, with an edge in `connect` or without one. -/
theorem exists_blank (env : Env D) (c : Bool) : ∃ v, Blank env c v := by
  cases c with
  | false => exact ⟨empty env, .empty env, rfl, rfl⟩
  | true =>
    refine ⟨_, ((Plain.empty env).edge "1" "2").topology, ?_, ?_⟩
    · rfl
    · rfl

theorem Blank.free (h : Blank env c v) (id : String) : v.panel.completeEltSet.findNode id = none := by
  by_contra hne
  obtain ⟨n, hn⟩ := Option.ne_none_iff_exists'.1 hne
  have hmem := ((h.settled.made.registered.findNode id n).1 hn).1
  rw [h.nodes] at hmem
  cases hmem

/-! ## One node -/

/-- The graph of one node. -/
structure Single (n : NodeRef) (r : NodeRecord D) (v : Viewer D) : Prop where
  nodes : v.panel.completeEltSet.nodes = [n]
  record : v.nodeRecord n = r

omit [DecidableEq D] in
/-- What is written is in the record. -/
theorem Single.write {n : NodeRef} {id : String} {label : String} {p : D × D} (h : Single n ⟨some id, some label, p, false⟩ v)
    (label' : Option String) (place : Option (D × D)) (fixed : Bool) :
    Single n ⟨some id, some (label'.getD label), place.getD p, fixed⟩ (write n label' place fixed v) := by
  have hr := h.record
  simp only [Viewer.nodeRecord, NodeRecord.mk.injEq] at hr
  obtain ⟨hid, hlbl, hloc, hfix⟩ := hr
  refine ⟨?_, ?_⟩
  · cases label' <;> cases place <;> cases fixed <;> exact h.nodes
  · cases label' <;> cases place <;> cases fixed <;>
      simp [Viewer.nodeRecord, InputParser.write, setLabel, setFixed, setLocation, St.setNode, hid, hlbl, hloc, hfix]

theorem Blank.addNew (h : Blank env c v) (id : String) :
    Single v.panel.nodesMade ⟨some id, some id, env.random v.panel.nodesMade, false⟩ (addNew id v) := by
  have hn := addNew_spec h.ready.loose (fun _ hlt => hlt) id
  have hf := addNew_frame id v
  refine ⟨?_, ?_⟩
  · rw [hn.added (h.free id), h.nodes, List.nil_append]
  · rw [Viewer.nodeRecord, hn.name, addNew_label h.settled, hf.location, hf.fixed, h.location, h.fixed]

theorem Blank.named (h : Blank env c v) (id label : String) :
    Single v.panel.nodesMade ⟨some id, some label, env.random v.panel.nodesMade, false⟩
      (startElement env "node" [("id", id), ("name", label)] v) := by
  rw [startElement_named]
  exact (h.addNew id).write (some label) none false

/-! ## What the graphs tell -/

theorem reads_random (random : NodeRef → D × D) (ntag : String) :
    ∀ (attrs : Attributes) (connected : Bool) (prev : Option String),
    reads { env with random := random } ntag connected prev attrs = reads env ntag connected prev attrs
  | [], _, _ => rfl
  | (name, value) :: rest, connected, prev => by
    have ih := reads_random random ntag rest
    unfold reads
    cases prev <;> simp only [ih] <;> rfl

/-- The new nodes are all put at `p`. -/
def putAt (env : Env D) (p : D × D) : Env D := { env with random := fun _ => p }

theorem OrderFree.run {qName : String} {attrs attrs' : Attributes} (h : OrderFree env qName attrs attrs' c)
    (hq : toLowerCase qName ≠ "topology") {p : D × D} (hv : Plain (putAt env p) c v) :
    SameGraph (run (toLowerCase qName) (reads env (toLowerCase qName) c none attrs) v)
      (run (toLowerCase qName) (reads env (toLowerCase qName) c none attrs') v) := by
  have hreads := startElement_reads (putAt env p) hv.settled hv.thrown hq
  have h1 := (hreads attrs).sameGraph
  have h2 := (hreads attrs').sameGraph
  rw [hv.connect, putAt, reads_random] at h1 h2
  exact h1.symm.trans ((h _ v hv.reach hv.thrown hv.connect).trans h2)

omit [DecidableEq D] in
theorem SameGraph.singles {n m : NodeRef} {r r' : NodeRecord D} (h : SameGraph v w) (hv : Single n r v)
    (hw : Single m r' w) : r = r' := by
  have hp := h.nodes
  rw [hv.nodes, hw.nodes, List.map_singleton, List.map_singleton, hv.record, hw.record] at hp
  exact List.singleton_inj.1 (List.singleton_perm_singleton.1 hp ▸ rfl)

omit [DecidableEq D] in
theorem SameGraph.not_single {n : NodeRef} {r : NodeRecord D} (h : SameGraph v w) (hv : v.panel.completeEltSet.nodes = []) :
    ¬Single n r w := by
  intro hw
  have hp := h.nodes.length_eq
  rw [hv, hw.nodes] at hp
  cases hp

/-- There are two values to tell what is set from what is not. -/
theorem getD_inj {α : Type*} [Nontrivial α] {a b : Option α} (h : ∀ x, a.getD x = b.getD x) : a = b := by
  cases a with
  | none =>
    cases b with
    | none => rfl
    | some y =>
      obtain ⟨x, hx⟩ := exists_ne y
      exact absurd (h x) hx
  | some y =>
    cases b with
    | none =>
      obtain ⟨x, hx⟩ := exists_ne y
      exact absurd (h x).symm hx
    | some z => exact congrArg some (h z)

variable (env c) in
/-- A node element reads one node or nothing. -/
theorem reads_node (hnode : isNode ntag = true) : ∀ (attrs : Attributes) (prev : Option String),
    reads env ntag c prev attrs = [] ∨ ∃ id rest, reads env ntag c prev attrs = nodeReads env ntag id rest
  | [], _ => .inl rfl
  | (name, value) :: rest, prev => by
    have ih := reads_node hnode rest (some value)
    have hedge : isEdge ntag ≠ true := not_isEdge hnode
    have hrem : ntag ≠ "remove_edge" := by rintro rfl; exact absurd hnode (by decide)
    unfold reads
    split
    · exact .inr ⟨value, rest, rfl⟩
    · split
      · cases prev with
        | none => exact ih
        | some fromID => exact ih
      · split
        · exact .inl rfl
        · exact ih

theorem order_newNode [Nontrivial D] {qName : String} {attrs attrs' : Attributes} (hnew : isNewNode (toLowerCase qName) = true)
    (h : OrderFree env qName attrs attrs' c) :
    reads env (toLowerCase qName) c none attrs = reads env (toLowerCase qName) c none attrs' := by
  have hnode : isNode (toLowerCase qName) = true := by rw [isNode, hnew]; rfl
  have hq : toLowerCase qName ≠ "topology" := by intro htop; rw [htop] at hnew; exact absurd hnew (by decide)
  have hshape : ∀ attrs, reads env (toLowerCase qName) c none attrs = [] ∨
      ∃ id label place fixed, reads env (toLowerCase qName) c none attrs = [.node id (some label) place fixed] := by
    intro attrs
    refine (reads_node env c hnode attrs none).imp_right ?_
    rintro ⟨id, rest, heq⟩
    rw [nodeReads, if_pos hnew] at heq
    exact ⟨id, _, _, _, heq⟩
  -- the graph that one node makes of no node
  have hmade : ∀ (p : D × D) (v : Viewer D), Blank (putAt env p) c v → ∀ id label place fixed,
      Single v.panel.nodesMade ⟨some id, some label, Option.getD place p, fixed⟩
        (run (toLowerCase qName) [.node id (some label) place fixed] v) := by
    intro p v hv id label place fixed
    rw [run_singleton, perform, if_pos hnew]
    exact (hv.addNew id).write (some label) place fixed
  have htest : ∀ p, ∃ v, Blank (putAt env p) c v ∧
      SameGraph (run (toLowerCase qName) (reads env (toLowerCase qName) c none attrs) v)
        (run (toLowerCase qName) (reads env (toLowerCase qName) c none attrs') v) := by
    intro p
    obtain ⟨v, hv⟩ := exists_blank (putAt env p) c
    exact ⟨v, hv, h.run hq hv.toPlain⟩
  rcases hshape attrs with hnil | ⟨id, label, place, fixed, hr⟩
  · rcases hshape attrs' with hnil' | ⟨id', label', place', fixed', hr'⟩
    · rw [hnil, hnil']
    · obtain ⟨v, hv, hsame⟩ := htest (env.minValue, env.minValue)
      rw [hnil, hr'] at hsame
      exact absurd (hmade _ v hv id' label' place' fixed') (hsame.not_single hv.nodes)
  · rcases hshape attrs' with hnil' | ⟨id', label', place', fixed', hr'⟩
    · obtain ⟨v, hv, hsame⟩ := htest (env.minValue, env.minValue)
      rw [hr, hnil'] at hsame
      exact absurd (hmade _ v hv id label place fixed) (hsame.symm.not_single hv.nodes)
    · have hrecord : ∀ p, id = id' ∧ label = label' ∧ place.getD p = place'.getD p ∧ fixed = fixed' := by
        intro p
        obtain ⟨v, hv, hsame⟩ := htest p
        rw [hr, hr'] at hsame
        have heq := hsame.singles (hmade p v hv id label place fixed) (hmade p v hv id' label' place' fixed')
        simpa using heq
      obtain ⟨hid, hlabel, -, hfixed⟩ := hrecord (env.minValue, env.minValue)
      rw [hr, hr', hid, hlabel, getD_inj fun p => (hrecord p).2.2.1, hfixed]

omit [DecidableEq D] in
/-- A node that stays as it was, whatever it was like, has not been written. -/
theorem not_written [Nontrivial D] (id : String) {label : Option String} {place : Option (D × D)} {fixed : Bool}
    (h : ∀ l p, (⟨some id, some (label.getD l), place.getD p, fixed⟩ : NodeRecord D) = ⟨some id, some l, p, false⟩) :
    label = none ∧ place = none ∧ fixed = false := by
  have : Nontrivial String := ⟨"", "0", by decide⟩
  have hrecord : ∀ l p, label.getD l = l ∧ place.getD p = p ∧ fixed = false := fun l p => by simpa using h l p
  obtain ⟨x, -⟩ := exists_pair_ne D
  exact ⟨getD_inj fun l => (hrecord l (x, x)).1, getD_inj fun p => (hrecord "" p).2.1, (hrecord "" (x, x)).2.2⟩

omit [DecidableEq D] in
/-- What becomes of the one node. -/
theorem Single.modify {n : NodeRef} {id l : String} {p : D × D} (h : Single n ⟨some id, some l, p, false⟩ v)
    (hs : Settled v.panel) (hold : isNewNode ntag ≠ true) (id' : String) (label : Option String) (place : Option (D × D))
    (fixed : Bool) :
    Single n (if id' = id then ⟨some id, some (label.getD l), place.getD p, fixed⟩ else ⟨some id, some l, p, false⟩)
      (perform ntag v (.node id' label place fixed)) := by
  have hid : (v.panel.node n).id = some id := congrArg NodeRecord.id h.record
  have hmem : n ∈ v.panel.completeEltSet.nodes := by rw [h.nodes]; exact List.mem_singleton_self n
  rw [perform, if_neg hold]
  split
  · rename_i heq
    rw [heq, (hs.made.registered.findNode id n).2 ⟨hmem, hid⟩]
    exact h.write label place fixed
  · rename_i hne
    have hnone : v.panel.completeEltSet.findNode id' = none := by
      by_contra hfound
      obtain ⟨m, hm⟩ := Option.ne_none_iff_exists'.1 hfound
      obtain ⟨hmm, hmid⟩ := (hs.made.registered.findNode id' m).1 hm
      rw [h.nodes, List.mem_singleton] at hmm
      rw [hmm, hid] at hmid
      exact hne (Option.some.inj hmid).symm
    rw [hnone]
    exact h

omit [DecidableEq D] in
/-- What is set of a node can be told from what becomes of it. -/
theorem modified_eq [Nontrivial D] (hold : isNewNode ntag ≠ true) {id : String} {label : Option String}
    {place : Option (D × D)} {fixed : Bool} (hset : ¬(label = none ∧ place = none ∧ fixed = false)) {rs : List (Read D)}
    (hrs : rs = [] ∨ ∃ id' label' place' fixed', rs = [.node id' label' place' fixed'])
    (htest : ∀ l p, ∃ n u, Single n ⟨some id, some l, p, false⟩ u ∧ Settled u.panel ∧
      SameGraph (run ntag [.node id label place fixed] u) (run ntag rs u)) : [.node id label place fixed] = rs := by
  have hmade : ∀ {n : NodeRef} {u : Viewer D} {l : String} {p : D × D}, Single n ⟨some id, some l, p, false⟩ u →
      Settled u.panel → ∀ id' label place fixed,
      Single n (if id' = id then ⟨some id, some (Option.getD label l), Option.getD place p, fixed⟩ else ⟨some id, some l, p, false⟩)
        (run ntag [.node id' label place fixed] u) := by
    intro n u l p hu hs id' label place fixed
    rw [run_singleton]
    exact hu.modify hs hold id' label place fixed
  rcases hrs with rfl | ⟨id', label', place', fixed', rfl⟩
  · refine absurd (not_written id fun l p => ?_) hset
    obtain ⟨n, u, hu, hs, hsame⟩ := htest l p
    have hleft := hmade hu hs id label place fixed
    rw [if_pos rfl] at hleft
    exact hsame.singles hleft hu
  · by_cases hid : id' = id
    · have hrecord : ∀ l p, label.getD l = label'.getD l ∧ place.getD p = place'.getD p ∧ fixed = fixed' := by
        intro l p
        obtain ⟨n, u, hu, hs, hsame⟩ := htest l p
        have hleft := hmade hu hs id label place fixed
        have hright := hmade hu hs id' label' place' fixed'
        rw [if_pos rfl] at hleft
        rw [if_pos hid] at hright
        simpa using hsame.singles hleft hright
      have : Nontrivial String := ⟨"", "0", by decide⟩
      obtain ⟨x, -⟩ := exists_pair_ne D
      rw [hid, getD_inj fun l => (hrecord l (x, x)).1, getD_inj fun p => (hrecord "" p).2.1, (hrecord "" (x, x)).2.2]
    · refine absurd (not_written id fun l p => ?_) hset
      obtain ⟨n, u, hu, hs, hsame⟩ := htest l p
      have hleft := hmade hu hs id label place fixed
      have hright := hmade hu hs id' label' place' fixed'
      rw [if_pos rfl] at hleft
      rw [if_neg hid] at hright
      exact hsame.singles hleft hright

theorem order_modifyNode [Nontrivial D] {qName : String} {attrs attrs' : Attributes}
    (hq : toLowerCase qName = "modify_node") (h : OrderFree env qName attrs attrs' c) :
    reads env (toLowerCase qName) c none attrs = reads env (toLowerCase qName) c none attrs' := by
  have hold : isNewNode (toLowerCase qName) ≠ true := by rw [hq]; decide
  have hshape : ∀ attrs, reads env (toLowerCase qName) c none attrs = [] ∨ ∃ id label place fixed,
      ¬(label = none ∧ place = none ∧ fixed = false) ∧
        reads env (toLowerCase qName) c none attrs = [.node id label place fixed] := by
    intro attrs
    have hnode : isNode (toLowerCase qName) = true := by rw [hq]; decide
    rcases reads_node env c hnode attrs none with hnil | ⟨id, rest, heq⟩
    · exact .inl hnil
    · rw [nodeReads, if_neg hold] at heq
      split at heq
      · exact .inl heq
      · rename_i hidle
        exact .inr ⟨id, _, _, _, hidle, heq⟩
  have hone : ∀ attrs, reads env (toLowerCase qName) c none attrs = [] ∨ ∃ id label place fixed,
      reads env (toLowerCase qName) c none attrs = [.node id label place fixed] := by
    intro attrs
    refine (hshape attrs).imp_right ?_
    rintro ⟨id, label, place, fixed, -, hr⟩
    exact ⟨id, label, place, fixed, hr⟩
  -- a node with this ID, and what becomes of it
  have htest : ∀ id l p, ∃ n u, Single n ⟨some id, some l, p, false⟩ u ∧ Settled u.panel ∧
      SameGraph (run (toLowerCase qName) (reads env (toLowerCase qName) c none attrs) u)
        (run (toLowerCase qName) (reads env (toLowerCase qName) c none attrs') u) := by
    intro id l p
    obtain ⟨v, hv⟩ := exists_blank (putAt env p) c
    exact ⟨_, _, hv.named id l, (hv.toPlain.named id l).settled, h.run (by rw [hq]; decide) (hv.toPlain.named id l)⟩
  rcases hshape attrs with hnil | ⟨id, label, place, fixed, hset, hr⟩
  · rcases hshape attrs' with hnil' | ⟨id', label', place', fixed', hset', hr'⟩
    · rw [hnil, hnil']
    · rw [hr']
      refine (modified_eq hold hset' (hone attrs) fun l p => ?_).symm
      obtain ⟨n, u, hu, hs, hsame⟩ := htest id' l p
      rw [hr'] at hsame
      exact ⟨n, u, hu, hs, hsame.symm⟩
  · rw [hr]
    refine modified_eq hold hset (hone attrs') fun l p => ?_
    obtain ⟨n, u, hu, hs, hsame⟩ := htest id l p
    rw [hr] at hsame
    exact ⟨n, u, hu, hs, hsame⟩

omit [DecidableEq D] in
/-- The one node goes with its ID. -/
theorem Single.without {n : NodeRef} {r : NodeRecord D} {id : String} {ids : List String} (h : Single n r v)
    (hid : r.id = some id) (hw : Without ids v w) : w.panel.completeEltSet.nodes = if id ∈ ids then [] else [n] := by
  have hn : (v.panel.node n).id = some id := (congrArg NodeRecord.id h.record).trans hid
  rw [hw.nodes, h.nodes]
  by_cases hmem : id ∈ ids
  · rw [if_pos hmem, List.filter_eq_nil_iff]
    intro m hm
    rw [List.mem_singleton.1 hm, decide_eq_true_eq]
    exact fun hall => hall id hmem hn
  · rw [if_neg hmem, List.filter_eq_self]
    intro m hm
    rw [List.mem_singleton.1 hm, decide_eq_true_eq, hn]
    rintro k hk heq
    exact hmem (Option.some.inj heq ▸ hk)

theorem order_removeNode {qName : String} {attrs attrs' : Attributes} (hq : toLowerCase qName = "remove_node")
    (h : OrderFree env qName attrs attrs' c) :
    ∀ r ∈ reads env (toLowerCase qName) c none attrs, r ∈ reads env (toLowerCase qName) c none attrs' := by
  obtain ⟨ids, hids⟩ := reads_remove env attrs c none
  obtain ⟨ids', hids'⟩ := reads_remove env attrs' c none
  intro r hr
  by_contra hr'
  rw [hq, hids] at hr
  rw [hq, hids'] at hr'
  obtain ⟨id, hmem, rfl⟩ := List.mem_map.1 hr
  have hmem' : id ∉ ids' := fun hid => hr' (List.mem_map_of_mem hid)
  obtain ⟨v, hv⟩ := exists_blank (putAt env (env.minValue, env.minValue)) c
  have hu := hv.toPlain.named id ""
  have hsame := h.run (by rw [hq]; decide) hu
  rw [hq, hids, hids'] at hsame
  have hlen := hsame.nodes.length_eq
  rw [(hv.named id "").without rfl (run_without hu.settled hu.thrown ids), if_pos hmem,
    (hv.named id "").without rfl (run_without hu.settled hu.thrown ids'), if_neg hmem'] at hlen
  cases hlen

/-! ## One edge -/

def isTo (a : String × String) : Bool := toLowerCase a.1 = "to"

/-- An element of an edge without a `to` reads nothing. -/
theorem reads_nil (hnode : isNode ntag ≠ true) (hrem : ntag ≠ "remove_node") : ∀ (attrs : Attributes) (c : Bool)
    (prev : Option String), attrs.filter isTo = [] → reads env ntag c prev attrs = []
  | [], _, _, _ => rfl
  | (name, value) :: rest, c, prev, h => by
    have hto : ¬toLowerCase name = "to" := by
      intro hname
      exact List.filter_eq_nil_iff.1 h _ List.mem_cons_self (decide_eq_true hname)
    have ih := reads_nil hnode hrem rest c (some value)
      (List.filter_eq_nil_iff.2 fun a ha => List.filter_eq_nil_iff.1 h a (List.mem_cons_of_mem _ ha))
    unfold reads
    split
    · exact ih
    · split
      · rfl
      · exact ih

/-- With one `to` it reads one edge or nothing. -/
theorem reads_edge (hnode : isNode ntag ≠ true) (hrem : ntag ≠ "remove_node") : ∀ (attrs : Attributes) (c : Bool)
    (prev : Option String) (t : String × String), attrs.filter isTo = [t] →
    reads env ntag c prev attrs = [] ∨ ∃ a, reads env ntag c prev attrs = [.edge a t.2]
  | (name, value) :: rest, c, prev, t, h => by
    by_cases hto : toLowerCase name = "to"
    · have hpos : isTo (name, value) = true := decide_eq_true hto
      rw [List.filter_cons_of_pos hpos] at h
      obtain ⟨rfl, hrest⟩ := List.cons_eq_cons.1 h
      have hnil : ∀ c, reads env ntag c (some value) rest = [] := fun c => reads_nil hnode hrem rest c _ hrest
      have hid : ¬toLowerCase name = "id" := by rw [hto]; decide
      unfold reads
      rw [if_neg hid, if_pos hto]
      cases prev with
      | none => exact .inl (hnil c)
      | some fromID =>
        dsimp only
        rw [hnil, hnil]
        split
        · exact .inr ⟨fromID, rfl⟩
        · split
          · exact .inr ⟨fromID, rfl⟩
          · exact .inl rfl
    · rw [List.filter_cons_of_neg (by simpa [isTo] using hto)] at h
      have ih := reads_edge hnode hrem rest c (some value) t h
      unfold reads
      rw [if_neg hto]
      split
      · exact ih
      · split
        · exact .inl rfl
        · exact ih

variable (env) in
/-- Both orders read one edge to the same node, or nothing. -/
theorem reads_edges (hnode : isNode ntag ≠ true) (hrem : ntag ≠ "remove_node") {attrs attrs' : Attributes}
    (hperm : attrs.Perm attrs') (hone : (attrs.filter isTo).length ≤ 1) (c : Bool) :
    ∃ b, (reads env ntag c none attrs = [] ∨ ∃ a, reads env ntag c none attrs = [.edge a b]) ∧
      (reads env ntag c none attrs' = [] ∨ ∃ a, reads env ntag c none attrs' = [.edge a b]) := by
  have hfilter := hperm.filter isTo
  cases hto : attrs.filter isTo with
  | nil =>
    rw [hto] at hfilter
    exact ⟨"", .inl (reads_nil hnode hrem _ c _ hto), .inl (reads_nil hnode hrem _ c _ hfilter.nil_eq.symm)⟩
  | cons t ts =>
    rw [hto] at hone hfilter
    obtain rfl : ts = [] := List.length_eq_zero_iff.1 (by simpa using hone)
    exact ⟨t.2, reads_edge hnode hrem _ c _ t hto, reads_edge hnode hrem _ c _ t (List.singleton_perm.1 hfilter).symm⟩

/-- Orders that read differently read an edge in one of them, and in the other one nothing, or an edge from another
node. -/
theorem reads_differ {P : List (Read D) → List (Read D) → Prop} {rs rs' : List (Read D)} {b : String}
    (h : rs = [] ∨ ∃ a, rs = [.edge a b]) (h' : rs' = [] ∨ ∃ a, rs' = [.edge a b]) (hsymm : ∀ {rs rs'}, P rs rs' → P rs' rs)
    (hnil : ∀ a, ¬P [.edge a b] []) (hedge : ∀ a a', a ≠ a' → ¬P [.edge a b] [.edge a' b]) (hp : P rs rs') : rs = rs' := by
  rcases h with rfl | ⟨a, rfl⟩
  · rcases h' with rfl | ⟨a', rfl⟩
    · rfl
    · exact absurd (hsymm hp) (hnil a')
  · rcases h' with rfl | ⟨a', rfl⟩
    · exact absurd hp (hnil a)
    · by_contra hne
      exact hedge a a' (fun heq => hne (by rw [heq])) hp

omit [DecidableEq D] in
theorem joined_ends (h : Ready env v) (fromID toID : String) : ∃ e, (joined fromID toID v).panel.shown = v.panel.shown ++ [e] ∧
    (joined fromID toID v).fromID e = some fromID ∧ (joined fromID toID v).toID e = some toID := by
  obtain ⟨-, ns, he, -, hrecord⟩ := joined_extends h fromID toID defaultColor
  generalize joined fromID toID v = w at he hrecord ⊢
  exact ⟨_, he.shown, congrArg EdgeRecord.fromID hrecord, congrArg EdgeRecord.toID hrecord⟩

theorem order_newEdge {qName : String} {attrs attrs' : Attributes} (hedge : isEdge (toLowerCase qName) = true)
    (hm : toLowerCase qName ≠ "modify_edge") (hperm : attrs.Perm attrs') (hone : (attrs.filter isTo).length ≤ 1)
    (h : OrderFree env qName attrs attrs' c) :
    reads env (toLowerCase qName) c none attrs = reads env (toLowerCase qName) c none attrs' := by
  have hnode : isNode (toLowerCase qName) ≠ true := fun hn => not_isEdge hn hedge
  have hrem : toLowerCase qName ≠ "remove_node" := by intro hr; rw [hr] at hedge; exact absurd hedge (by decide)
  have htop : toLowerCase qName ≠ "topology" := by intro hr; rw [hr] at hedge; exact absurd hedge (by decide)
  obtain ⟨v, hv⟩ := exists_blank (putAt env (env.minValue, env.minValue)) c
  obtain ⟨b, hr, hr'⟩ := reads_edges env hnode hrem hperm hone c
  have hends : ∀ a, (run (toLowerCase qName) [.edge a b] v).panel.shown.map (fun e =>
      ((run (toLowerCase qName) [.edge a b] v).fromID e, (run (toLowerCase qName) [.edge a b] v).toID e)) =
        [(some a, some b)] := by
    intro a
    have hrun : run (toLowerCase qName) [.edge a b] v = joined a b v := by
      rw [run_singleton, perform, if_pos hedge, connectEdge]
      exact congrArg addConnect (if_neg hm)
    obtain ⟨e, hshown, hfrom, hto⟩ := joined_ends hv.ready a b
    rw [hrun, hshown, hv.shown, List.nil_append, List.map_singleton, hfrom, hto]
  refine reads_differ (P := fun rs rs' => SameGraph (run (toLowerCase qName) rs v) (run (toLowerCase qName) rs' v)) hr hr'
    SameGraph.symm (fun a hsame => ?_) (fun a a' hne hsame => ?_) (h.run htop hv.toPlain)
  · have hlen := hsame.edges.length_eq
    rw [hends, List.length_map] at hlen
    rw [show (run (toLowerCase qName) [] v).panel.shown = [] from hv.shown] at hlen
    cases hlen
  · have hp := hsame.edges
    rw [hends, hends, List.perm_singleton] at hp
    exact hne (by simpa using hp)

/-! ### `modify_edge` -/

omit [DecidableEq D] in
theorem endNodes_found (h : Loose v) (fromID toID id : String) :
    (endNodes fromID toID v).2.2.panel.completeEltSet.findNode id ≠ none ↔
      v.panel.completeEltSet.findNode id ≠ none ∨ id = fromID ∨ id = toID := by
  have hn := endNodes_spec h (fun _ hlt => hlt) fromID toID
  constructor
  · intro hfound
    by_contra hno
    obtain ⟨hv, hne⟩ := not_or.1 hno
    obtain ⟨hfrom, hto⟩ := not_or.1 hne
    have hfree : ∀ k, ∀ n ∈ v.panel.completeEltSet.findNode k, n < v.panel.nodesMade ∧ (v.panel.node n).id = some k :=
      fun k n hk => ⟨h.findNode_lt n hk, ((h.registered.findNode k n).1 hk).2⟩
    have hf := endNode_spec h (fun _ hlt => hlt) (hfree fromID)
    have ht := endNode_spec hf.kept (fun n hlt => Nat.lt_of_lt_of_le hlt hf.made.1) (fun n hk =>
      ⟨Nat.lt_of_lt_of_le (hfree toID n hk).1 hf.made.1, (hf.names n (hfree toID n hk).1).1.trans (hfree toID n hk).2⟩)
    exact hfound ((ht.other id hto).trans ((hf.other id hfrom).trans (not_not.1 hv)))
  · rintro (hv | rfl | rfl)
    · obtain ⟨n, hk⟩ := Option.ne_none_iff_exists'.1 hv
      rw [hn.old id n hk]
      exact Option.some_ne_none n
    · rw [hn.fromNode]
      exact Option.some_ne_none _
    · by_cases heq : fromID = id
      · subst heq
        rw [hn.fromNode]
        exact Option.some_ne_none _
      · rw [hn.toNode fun hc => absurd hc heq]
        exact Option.some_ne_none _

omit [DecidableEq D] in
theorem SameGraph.names (h : SameGraph v w) (hv : Loose v) (hw : Loose w) (id : String) :
    v.panel.completeEltSet.findNode id ≠ none ↔ w.panel.completeEltSet.findNode id ≠ none := by
  rw [findNode_ne_none hv, findNode_ne_none hw]
  unfold Topology.Names
  exact exists_congr fun r => and_congr_left fun _ => h.nodes.mem_iff

omit [DecidableEq D] in
theorem modifyEdge_found (h : Settled v.panel) (hm : ntag = "modify_edge") (fromID toID id : String) :
    (connectEdge ntag fromID toID v).panel.completeEltSet.findNode id =
      (endNodes fromID toID v).2.2.panel.completeEltSet.findNode id := by
  have hs := endNodes_settled h fromID toID
  unfold connectEdge
  generalize endNodes fromID toID v = r at hs
  obtain ⟨f, t, w⟩ := r
  dsimp only at hs ⊢
  rw [if_pos hm]
  cases hfe : VisibleLocality.findEdge f t w.panel with
  | none => rfl
  | some e =>
    have heq : (addConnect { w with connect := some e }).panel = TGPanel.updatePartitions w.panel := addMade_found hfe
    rw [heq]
    exact hs.kept.redraw.findNode id

theorem order_modifyEdge {qName : String} {attrs attrs' : Attributes} (hm : toLowerCase qName = "modify_edge")
    (hperm : attrs.Perm attrs') (hone : (attrs.filter isTo).length ≤ 1) (h : OrderFree env qName attrs attrs' c) :
    reads env (toLowerCase qName) c none attrs = reads env (toLowerCase qName) c none attrs' := by
  have hnode : isNode (toLowerCase qName) ≠ true := by rw [hm]; decide
  have hrem : toLowerCase qName ≠ "remove_node" := by rw [hm]; decide
  have htop : toLowerCase qName ≠ "topology" := by rw [hm]; decide
  obtain ⟨v, hv⟩ := exists_blank (putAt env (env.minValue, env.minValue)) c
  obtain ⟨b, hr, hr'⟩ := reads_edges env hnode hrem hperm hone c
  have hrun : ∀ a, run (toLowerCase qName) [.edge a b] v = connectEdge (toLowerCase qName) a b v := fun a => by
    rw [run_singleton, perform, if_pos (by rw [hm]; decide)]
  have hloose : ∀ a, Loose (run (toLowerCase qName) [.edge a b] v) := fun a => by
    rw [hrun]
    exact (connectEdge_settled hv.settled (toLowerCase qName) a b).kept
  have hfound : ∀ a id, (run (toLowerCase qName) [.edge a b] v).panel.completeEltSet.findNode id ≠ none ↔ id = a ∨ id = b := by
    intro a id
    rw [hrun, modifyEdge_found hv.settled hm, endNodes_found hv.settled.kept, hv.free id]
    simp
  refine reads_differ (P := fun rs rs' => SameGraph (run (toLowerCase qName) rs v) (run (toLowerCase qName) rs' v)) hr hr'
    SameGraph.symm (fun a hsame => ?_) (fun a a' hne hsame => ?_) (h.run htop hv.toPlain)
  · have hnames := hsame.names (hloose a) hv.settled.kept b
    rw [hfound] at hnames
    exact hnames.1 (.inr rfl) (hv.free b)
  · have hleft := (hfound a' a).1 ((hsame.names (hloose a) (hloose a') a).1 ((hfound a a).2 (.inl rfl)))
    have hright := (hfound a a').1 ((hsame.names (hloose a) (hloose a') a').2 ((hfound a' a').2 (.inl rfl)))
    rcases hleft with heq | hab
    · exact hne heq
    · rcases hright with heq | hab'
      · exact hne heq.symm
      · exact hne (hab.trans hab'.symm)

/-! ### `remove_edge` -/

/-- One edge runs from `fromID` to `toID`, and there are no other nodes. -/
structure Lone (fromID toID : String) (v : Viewer D) : Prop where
  settled : Settled v.panel
  found : ∀ id, v.panel.completeEltSet.findNode id ≠ none → id = fromID ∨ id = toID
  edge : ∃ f t e, v.panel.completeEltSet.findNode fromID = some f ∧ v.panel.completeEltSet.findNode toID = some t ∧
    v.panel.shown = [e] ∧ v.panel.runs f t e

omit [DecidableEq D] in
theorem Single.findNode {n : NodeRef} {r : NodeRecord D} (h : Single n r v) (hs : Settled v.panel) (id : String) :
    v.panel.completeEltSet.findNode id = some n ↔ r.id = some id := by
  have hid : (v.panel.node n).id = r.id := congrArg NodeRecord.id h.record
  rw [hs.made.registered.findNode id n, h.nodes, hid]
  exact and_iff_right (List.mem_singleton_self n)

omit [DecidableEq D] in
/-- A new edge at the one node. -/
theorem Single.lone {n : NodeRef} {r : NodeRecord D} {fromID : String} (h : Single n r v) (hr : Ready env v)
    (hs : Settled v.panel) (hshown : v.panel.shown = []) (hid : r.id = some fromID) (toID : String)
    (hs' : Settled (joined fromID toID v).panel) : Lone fromID toID (joined fromID toID v) := by
  have hn := endNodes_spec hr.loose (fun _ hlt => hlt) fromID toID
  have hf := endNodes_frame fromID toID v
  have hjoined : joined fromID toID v = connectEdge "edge" fromID toID v := rfl
  have ht : (connectEdge "edge" fromID toID v).thrown = none := hf.thrown.trans hr.thrown
  have hmade : ∀ m, m < v.panel.nodesMade → m < (endNodes fromID toID v).2.2.panel.nodesMade := fun _ hlt =>
    Nat.lt_of_lt_of_le hlt hn.made.1
  obtain ⟨-, -, hfind⟩ := connectEdge_spec hr.loose (fun _ hlt => hlt) hmade (.inr hn.made.2.2) ht
  have hw : Loose (endNodes fromID toID v).2.2 := hn.kept.mono hmade
  obtain ⟨-, he, hedge⟩ := connectNew_extends hw hn.made.2.1 hn.made.2.2
  have hone : ∀ id, v.panel.completeEltSet.findNode id ≠ none → id = fromID := by
    intro id hfound
    obtain ⟨m, hm⟩ := Option.ne_none_iff_exists'.1 hfound
    have hmem := ((hs.made.registered.findNode id m).1 hm).1
    rw [h.nodes, List.mem_singleton] at hmem
    rw [hmem, h.findNode hs, hid] at hm
    exact (Option.some.inj hm).symm
  refine ⟨hs', fun id hfound => ?_, _, _, (endNodes fromID toID v).2.2.panel.edgesMade, (hfind fromID).trans hn.fromNode,
    (hfind toID).trans (hn.toNode fun heq => ?_), ?_, ?_⟩
  · rw [hjoined, hfind, endNodes_found hr.loose] at hfound
    exact hfound.elim (fun hv => .inl (hone id hv)) fun hends => hends
  · rw [← heq, (h.findNode hs fromID).2 hid]
    exact Option.some_ne_none n
  · exact he.shown.trans (by rw [hn.shown, hshown, List.nil_append])
  · rw [St.runs, show (joined fromID toID v).panel.edge (endNodes fromID toID v).2.2.panel.edgesMade =
      ⟨(endNodes fromID toID v).1, (endNodes fromID toID v).2.1, true⟩ from hedge]
    exact ⟨rfl, rfl⟩

theorem exists_lone (env : Env D) (c : Bool) (fromID toID : String) : ∃ v, Plain env c v ∧ Lone fromID toID v := by
  obtain ⟨v, hv⟩ := exists_blank env c
  have hnamed := hv.toPlain.named fromID fromID
  have hshown : (startElement env "node" [("id", fromID), ("name", fromID)] v).panel.shown = [] := by
    rw [startElement_named]
    exact (addNew_spec hv.ready.loose (fun _ hlt => hlt) fromID).shown.trans hv.shown
  have hedge := hnamed.edge fromID toID
  have heq : startElement env "edge" [("from", fromID), ("to", toID)] _ = joined fromID toID _ :=
    startElement_edge hnamed.thrown fromID toID
  have hs := hedge.settled
  rw [heq] at hs
  have hlone := (hv.named fromID fromID).lone hnamed.ready hnamed.settled hshown rfl toID hs
  rw [← heq] at hlone
  cases c with
  | true => exact ⟨_, hedge, hlone⟩
  | false =>
    refine ⟨_, hedge.endEdge, ?_⟩
    have hpanel : ∀ u : Viewer D, (endElement "edge" u).panel = u.panel := fun u => by
      unfold endElement
      dsimp only
      split <;> rfl
    exact ⟨by rw [hpanel]; exact hlone.settled, by rw [hpanel]; exact hlone.found, by rw [hpanel]; exact hlone.edge⟩

omit [DecidableEq D] in
/-- The lone edge goes with the IDs of its ends. -/
theorem Lone.removeEdge {fromID toID : String} (h : Lone fromID toID v) : (removeEdge fromID toID v).panel.shown = [] := by
  obtain ⟨f, t, e, hf, ht, hshown, hruns⟩ := h.edge
  have hmem := ((h.settled.made.registered.findNode fromID f).1 hf).1
  obtain ⟨hremoved, -⟩ := h.settled.kept.deleteEdgeBetween_shown h.settled.layered hmem t
  rw [hshown, List.find?_cons_of_pos (leads_of_runs hruns), Option.elim_some, List.erase_cons_head] at hremoved
  unfold InputParser.removeEdge
  rw [hf, ht]
  exact hremoved

omit [DecidableEq D] in
theorem Lone.removeEdge_other {fromID toID other : String} (h : Lone fromID toID v) (hf : other ≠ fromID) (ht : other ≠ toID) :
    InputParser.removeEdge other toID v = v := by
  have hnone : v.panel.completeEltSet.findNode other = none := by
    by_contra hfound
    exact (h.found other hfound).elim hf ht
  unfold InputParser.removeEdge
  rw [hnone]

omit [DecidableEq D] in
/-- Without the lone edge it is another graph. -/
theorem Lone.differs {fromID toID : String} (h : Lone fromID toID v) : ¬SameGraph (InputParser.removeEdge fromID toID v) v := by
  intro hsame
  obtain ⟨-, -, e, -, -, hshown, -⟩ := h.edge
  have hlen := hsame.edges.length_eq
  rw [h.removeEdge, hshown] at hlen
  cases hlen

theorem order_removeEdge {qName : String} {attrs attrs' : Attributes} (hq : toLowerCase qName = "remove_edge")
    (hperm : attrs.Perm attrs') (hone : (attrs.filter isTo).length ≤ 1) (h : OrderFree env qName attrs attrs' c) :
    reads env (toLowerCase qName) c none attrs = reads env (toLowerCase qName) c none attrs' := by
  have hnode : isNode (toLowerCase qName) ≠ true := by rw [hq]; decide
  have hrem : toLowerCase qName ≠ "remove_node" := by rw [hq]; decide
  have htop : toLowerCase qName ≠ "topology" := by rw [hq]; decide
  obtain ⟨b, hr, hr'⟩ := reads_edges env hnode hrem hperm hone c
  have hrun : ∀ a (u : Viewer D), run (toLowerCase qName) [.edge a b] u = removeEdge a b u := fun a u => by
    rw [run_singleton, perform, if_neg (by rw [hq]; decide)]
  refine reads_differ (P := fun rs rs' => ∀ fromID, ∃ u, Lone fromID b u ∧
    SameGraph (run (toLowerCase qName) rs u) (run (toLowerCase qName) rs' u)) hr hr' ?_ ?_ ?_ ?_
  · intro rs rs' hp fromID
    obtain ⟨u, hu, hsame⟩ := hp fromID
    exact ⟨u, hu, hsame.symm⟩
  · intro a hp
    obtain ⟨u, hu, hsame⟩ := hp a
    rw [hrun] at hsame
    exact hu.differs hsame
  · intro a a' hne hp
    -- the edge that only one of them removes
    by_cases hb : a' = b
    · subst hb
      obtain ⟨u, hu, hsame⟩ := hp a'
      rw [hrun, hrun, hu.removeEdge_other hne hne] at hsame
      exact hu.differs hsame.symm
    · obtain ⟨u, hu, hsame⟩ := hp a
      rw [hrun, hrun, hu.removeEdge_other (Ne.symm hne) hb] at hsame
      exact hu.differs hsame
  · intro fromID
    obtain ⟨u, hu, hlone⟩ := exists_lone (putAt env (env.minValue, env.minValue)) c fromID b
    exact ⟨u, hlone, h.run htop hu⟩

/-! ## Every element -/

/-- The elements that make the graph. -/
def elements : List String :=
  ["node", "add_node", "modify_node", "remove_node", "edge", "add_edge", "modify_edge", "remove_edge"]

theorem OrderFree.symm {qName : String} {attrs attrs' : Attributes} (h : OrderFree env qName attrs attrs' c) :
    OrderFree env qName attrs' attrs c :=
  fun random v hv ht hc => (h random v hv ht hc).symm

theorem sameReads_random (random : NodeRef → D × D) (ntag : String) (c : Bool) (attrs attrs' : Attributes) :
    SameReads { env with random := random } ntag c attrs attrs' ↔ SameReads env ntag c attrs attrs' := by
  unfold SameReads
  simp only [reads_random]

/-- **Two orders that read the same give the same graph on every graph, and no other two do if there is only one
`to`.** -/
theorem order_free [Nontrivial D] {qName : String} (hq : toLowerCase qName ∈ elements) {attrs attrs' : Attributes}
    (hperm : attrs.Perm attrs') (connected : Bool) :
    (SameReads env (toLowerCase qName) connected attrs attrs' → OrderFree env qName attrs attrs' connected) ∧
      ((attrs.filter isTo).length ≤ 1 → OrderFree env qName attrs attrs' connected →
        SameReads env (toLowerCase qName) connected attrs attrs') := by
  refine ⟨fun h random v hv ht hc => ?_, fun hone h => ?_⟩
  · refine sameGraph_of_sameReads (Viewer.reach_settled _ hv) ht ?_ ?_
    · rintro htop
      rw [htop] at hq
      exact absurd hq (by decide)
    · rw [hc]
      exact (sameReads_random random _ _ _ _).2 h
  · unfold SameReads
    by_cases hrem : toLowerCase qName = "remove_node"
    · rw [if_pos hrem]
      exact ⟨order_removeNode hrem h, order_removeNode hrem h.symm⟩
    · rw [if_neg hrem]
      by_cases hnew : isNewNode (toLowerCase qName) = true
      · exact order_newNode hnew h
      by_cases hmn : toLowerCase qName = "modify_node"
      · exact order_modifyNode hmn h
      by_cases hre : toLowerCase qName = "remove_edge"
      · exact order_removeEdge hre hperm hone h
      by_cases hme : toLowerCase qName = "modify_edge"
      · exact order_modifyEdge hme hperm hone h
      refine order_newEdge ?_ hme hperm hone h
      simp only [elements, List.mem_cons, List.not_mem_nil, or_false] at hq
      rcases hq with hn | hn | hn | hn | hn | hn | hn | hn
      · exact absurd (by rw [hn]; decide) hnew
      · exact absurd (by rw [hn]; decide) hnew
      · exact absurd hn hmn
      · exact absurd hn hrem
      · rw [hn]; decide
      · rw [hn]; decide
      · exact absurd hn hme
      · exact absurd hn hre

/-- What stands behind the `id` may stand in any order; `from` may not stand behind `to`. -/
theorem order_free_decimal :
    OrderFree decimal "node" [("id", "1"), ("name", "a"), ("x", "5")] [("id", "1"), ("x", "5"), ("name", "a")] false ∧
      ¬OrderFree decimal "edge" [("from", "1"), ("to", "2")] [("to", "2"), ("from", "1")] false :=
  ⟨(order_free (by decide) (by decide) false).1 (by decide), fun h =>
    absurd ((order_free (by decide) (by decide) false).2 (by decide) h) (by decide)⟩

/-- With `to` in front there is no edge. -/
theorem to_before_from : ¬∀ (qName : String) (attrs attrs' : Attributes) (connected : Bool), toLowerCase qName ∈ elements →
    (attrs.map Prod.fst).Nodup → attrs.Perm attrs' → OrderFree decimal qName attrs attrs' connected := by
  intro hall
  have hfree := hall "edge" [("from", "1"), ("to", "2")] [("to", "2"), ("from", "1")] false (by decide) (by decide) (by decide)
  have hlen := (hfree decimal.random (empty decimal) .refl rfl rfl).edges.length_eq
  exact absurd hlen (by decide +kernel)

end InputParser

end Topo
