import Awds.Topo.Load

/-!
# Whose quality a `value` is

A `Document` is well formed. `edgeBetween` is the edge that an edge element creates or looks up, whatever the parser
remembers of it: the new one between its ends, or what `findEdge` gives. `connect` is the only memory of the open edge
elements (`InputParser.java:12`): `Reaches` says that each `value` recolours the edge of the innermost one, `Proper` is
what the document must have for it.
-/

namespace Topo

namespace InputParser

/-! ## Documents -/

/-- An element with what stands in it, and what stands behind it. -/
inductive Document where
  | nil
  | element (qName : String) (attrs : Attributes) (inner rest : Document)
deriving DecidableEq, Repr

namespace Document

def events : Document → List Xml.Event
  | nil => []
  | element qName attrs inner rest => .startElement qName attrs :: (inner.events ++ .endElement qName :: rest.events)

end Document

/-- The element creates or looks up an edge: its `to` is not its first attribute (:170). -/
def Connects (ntag : String) (attrs : Attributes) : Prop :=
  isEdge ntag = true ∧ ∃ a ∈ attrs.tail, toLowerCase a.1 = "to"

instance (ntag : String) (attrs : Attributes) : Decidable (Connects ntag attrs) :=
  inferInstanceAs (Decidable (_ ∧ ∃ a ∈ attrs.tail, _))

section
variable {D : Type} [DecidableEq D] (env : Env D)

/-- The colours when `target` has got the quality `value`. -/
def paint (target : Option EdgeRef) (value : String) (color : EdgeRef → Color) : EdgeRef → Color :=
  match target with
  | none => color
  | some e => Function.update color e
      (qualityColor (((env.newDouble (String.ofList (value.toList.takeWhile (· ≠ '%')))).map env.intValue).getD 100))

/-- `handle` recolours `target` and no other edge, whatever the colours are. -/
def Recolours (target : Option EdgeRef) (value : String) (handle : Viewer D → Viewer D) (v : Viewer D) : Prop :=
  ∀ color, (handle { v with color := color }).color = paint env target value color

/-- Each `value` from here on recolours `target`. Behind the `id` of a node they are all handled at once. -/
def AttributesReach (ntag : String) (target : Option EdgeRef) : Option String → Attributes → Viewer D → Prop
  | _, [], _ => True
  | prev, (name, value) :: rest, v =>
    if toLowerCase name = "id" ∧ isNode ntag = true then
      ∀ a ∈ rest, toLowerCase a.1 = "value" → Recolours env target a.2 (nodeElement env ntag value rest) v
    else
      (toLowerCase name = "value" → Recolours env target value (attributeBranch env ntag prev name value) v) ∧
        AttributesReach ntag target (some value) rest (attributeBranch env ntag prev name value v)

def TagReaches (qName : String) (attrs : Attributes) (target : Option EdgeRef) (v : Viewer D) : Prop :=
  if toLowerCase qName = "topology" then
    ∀ a ∈ attrs, toLowerCase a.1 = "value" → Recolours env target a.2 (startElement env qName attrs) v
  else AttributesReach env (toLowerCase qName) target none attrs v

/-- The visible edge from `f` to `t` that is there in `s'` and was not made in `s`. -/
def newEdgeBetween (f t : NodeRef) (s s' : St) : Option EdgeRef :=
  (List.range' s.edgesMade (s'.edgesMade - s.edgesMade)).find? fun e => s'.edge e = ⟨f, t, true⟩

/-- The edge that the `to` of an edge element looks up or creates, from the node with the one ID to the node with the
other; nodes that are missing are added first. -/
def edgeBetween (ntag fromID toID : String) (v : Viewer D) : Option EdgeRef :=
  let (f, t, w) := endNodes fromID toID v
  if ntag = "modify_edge" then VisibleLocality.findEdge f t w.panel
  else newEdgeBetween f t w.panel (connectEdge ntag fromID toID v).panel

/-- The edge that an attribute of an edge element creates or looks up: a `to` behind another attribute does. -/
def ownAttribute (ntag : String) (prev : Option String) (name value : String) (v : Viewer D) : Option EdgeRef :=
  if toLowerCase name = "to" then prev.bind fun fromID => edgeBetween ntag fromID value v else none

/-- The edge of an edge element, the last one if there are several. -/
def ownEdge (ntag : String) : Option String → Attributes → Viewer D → Option EdgeRef
  | _, [], _ => none
  | prev, (name, value) :: rest, v =>
    (ownEdge ntag (some value) rest (attributeBranch env ntag prev name value v)).or
      (ownAttribute ntag prev name value v)

/-- The edge of the innermost edge element around what stands in an element: its own, if it is an edge element, else
the one of the element `outer` around it. -/
def innerEdge (qName : String) (attrs : Attributes) (outer : Option EdgeRef) (v : Viewer D) : Option EdgeRef :=
  if isEdge (toLowerCase qName) = true then ownEdge env (toLowerCase qName) none attrs v else outer

/-- Each `value` of the document recolours the edge of the innermost edge element that it stands in, `outer` if there
is none here. -/
def Reaches : Document → Option EdgeRef → Viewer D → Prop
  | .nil, _, _ => True
  | .element qName attrs inner rest, outer, v =>
    TagReaches env qName attrs (innerEdge env qName attrs outer v) v ∧
      Reaches inner (innerEdge env qName attrs outer v) (startElement env qName attrs v) ∧
      Reaches rest outer (endElement qName (parse env inner.events (startElement env qName attrs v)))

end

/-! ## What the document must have -/

/-- How many `to` attributes have made or found an edge, and the one that `connect` is of. -/
structure Mark where
  made : Nat
  last : Option Nat
deriving DecidableEq, Repr

namespace Mark

def connect (ntag : String) (prev : Option String) (name : String) (m : Mark) : Mark :=
  if isEdge ntag = true ∧ prev.isSome = true ∧ toLowerCase name = "to" then ⟨m.made + 1, some m.made⟩ else m

def attributes (ntag : String) : Option String → Attributes → Mark → Mark
  | _, [], m => m
  | prev, (name, value) :: rest, m => attributes ntag (some value) rest (m.connect ntag prev name)

def endElement (qName : String) (m : Mark) : Mark :=
  if toLowerCase qName = "edge" ∨ toLowerCase qName = "add_edge" ∨ toLowerCase qName = "remove_edge" then
    { m with last := none }
  else m

def parse : Document → Mark → Mark
  | .nil, m => m
  | .element qName attrs inner rest, m =>
    parse rest (endElement qName (parse inner (attributes (toLowerCase qName) none attrs m)))

def inner (qName : String) (attrs : Attributes) (outer : Option Nat) (m : Mark) : Option Nat :=
  if isEdge (toLowerCase qName) = true then
    if Connects (toLowerCase qName) attrs then (attributes (toLowerCase qName) none attrs m).last else none
  else outer

end Mark

/-- No `value` is left unread. -/
def Unread (target : Option Nat) (attrs : Attributes) : Prop := ∀ a ∈ attrs, toLowerCase a.1 = "value" → target = none

instance (target : Option Nat) (attrs : Attributes) : Decidable (Unread target attrs) :=
  inferInstanceAs (Decidable (∀ a ∈ attrs, _ → _))

def AttributesProper (ntag : String) (target : Option Nat) : Option String → Attributes → Mark → Prop
  | _, [], _ => True
  | prev, (name, value) :: rest, m =>
    if toLowerCase name = "id" ∧ isNode ntag = true then Unread target rest
    else (toLowerCase name = "value" → m.last = target) ∧
      AttributesProper ntag target (some value) rest (m.connect ntag prev name)

def TagProper (qName : String) (attrs : Attributes) (target : Option Nat) (m : Mark) : Prop :=
  if toLowerCase qName = "topology" then Unread target attrs
  else AttributesProper (toLowerCase qName) target none attrs m

/-- The last `to` or end tag of an edge before each `value` is the last `to` of the innermost edge element around it,
if that has got one, and otherwise an end tag or nothing. A `value` that is left unread is in no such element. -/
def Proper : Document → Option Nat → Mark → Prop
  | .nil, _, _ => True
  | .element qName attrs inner rest, outer, m =>
    TagProper qName attrs (m.inner qName attrs outer) m ∧
      Proper inner (m.inner qName attrs outer) (m.attributes (toLowerCase qName) none attrs) ∧
      Proper rest outer (Mark.endElement qName (Mark.parse inner (m.attributes (toLowerCase qName) none attrs)))

def decAttributesProper (ntag : String) (target : Option Nat) :
    (prev : Option String) → (attrs : Attributes) → (m : Mark) → Decidable (AttributesProper ntag target prev attrs m)
  | _, [], _ => isTrue trivial
  | prev, (name, value) :: rest, m =>
    have := decAttributesProper ntag target (some value) rest (m.connect ntag prev name)
    inferInstanceAs (Decidable (if toLowerCase name = "id" ∧ isNode ntag = true then Unread target rest else (_ → _) ∧ _))

instance (qName : String) (attrs : Attributes) (target : Option Nat) (m : Mark) : Decidable (TagProper qName attrs target m) :=
  have := decAttributesProper (toLowerCase qName) target none attrs m
  inferInstanceAs (Decidable (if toLowerCase qName = "topology" then Unread target attrs else _))

def decProper : (d : Document) → (outer : Option Nat) → (m : Mark) → Decidable (Proper d outer m)
  | .nil, _, _ => isTrue trivial
  | .element qName attrs inner rest, outer, m =>
    have := decProper inner (m.inner qName attrs outer) (m.attributes (toLowerCase qName) none attrs)
    have := decProper rest outer (Mark.endElement qName (Mark.parse inner (m.attributes (toLowerCase qName) none attrs)))
    inferInstanceAs (Decidable (TagProper qName attrs (m.inner qName attrs outer) m ∧ _ ∧ _))

instance (d : Document) (outer : Option Nat) (m : Mark) : Decidable (Proper d outer m) := decProper d outer m

/-! ## The edge of an element -/

variable {D : Type} [DecidableEq D] {env : Env D} {v w : Viewer D} {ntag : String} {m : Mark} {f : Nat → EdgeRef}

theorem removeInvisible_edge {e : EdgeRef} : ∀ (i : Nat) (s : St), s.isVisible e = true →
    (TGPanel.removeInvisible i s).edge e = s.edge e ∧ (TGPanel.removeInvisible i s).edgesMade = s.edgesMade
  | 0, _, _ => ⟨rfl, rfl⟩
  | i + 1, s, hv => by
    rw [TGPanel.removeInvisible]
    cases hi : s.completeEltSet.edges[i]? with
    | none => exact removeInvisible_edge i s hv
    | some k =>
      dsimp only
      by_cases hk : s.isVisible k = true
      · rw [if_pos hk]
        exact removeInvisible_edge i s hv
      · have hne : e ≠ k := by
          rintro rfl
          exact hk hv
        have hedge := VisibleLocality.deleteEdge_edge hne s
        have hmade : (VisibleLocality.deleteEdge (some k) s).edgesMade = s.edgesMade :=
          (GraphEltSet.deleteEdge_frame k _).2.2.1.trans (VisibleLocality.removeEdge_frame s k).2.2.1
        rw [if_neg hk, ← hedge, ← hmade]
        exact removeInvisible_edge i _ (by rw [St.isVisible, hedge]; exact hv)

theorem localAddEdge_edge (e : EdgeRef) (s : St) :
    (VisibleLocality.addEdge e s).edge = s.edge ∧ (VisibleLocality.addEdge e s).edgesMade = s.edgesMade := by
  unfold VisibleLocality.addEdge
  split
  · exact ⟨rfl, rfl⟩
  · dsimp only [St.countEdge_edge, St.countEdge_edgesMade]
    split
    · exact ⟨rfl, rfl⟩
    · unfold GraphEltSet.addEdge
      split
      · exact ⟨rfl, rfl⟩
      · simp [St.setCompleteEdges, St.setLocalEdges]

theorem buildInvisible_edge {e : EdgeRef} : ∀ (ps : List NodeRef) (s : St), e < s.edgesMade →
    (TGPanel.buildInvisible ps s).edge e = s.edge e ∧ s.edgesMade ≤ (TGPanel.buildInvisible ps s).edgesMade
  | [], _, _ => ⟨rfl, Nat.le_refl _⟩
  | [_], _, _ => ⟨rfl, Nat.le_refl _⟩
  | a :: b :: ps, s, he => by
    obtain ⟨hedge, hmade⟩ := localAddEdge_edge s.edgesMade (newEdge a b false s)
    have hmade : (VisibleLocality.addEdge s.edgesMade (newEdge a b false s)).edgesMade = s.edgesMade + 1 := hmade
    obtain ⟨hrest, hle⟩ := buildInvisible_edge (b :: ps) (VisibleLocality.addEdge s.edgesMade (newEdge a b false s))
      (by rw [hmade]; exact Nat.lt_succ_of_lt he)
    refine ⟨hrest.trans ?_, Nat.le_trans (by rw [hmade]; exact Nat.le_succ _) hle⟩
    rw [hedge]
    exact Function.update_of_ne (Nat.ne_of_lt he) ..

omit [DecidableEq D] in
/-- The edge that is made is the first one that was not there before. -/
theorem newEdgeBetween_eq (f t : NodeRef) (v : Viewer D) :
    newEdgeBetween f t v.panel (addConnect (connectNew f t v)).panel = some v.panel.edgesMade := by
  obtain ⟨hedge, hmade⟩ := localAddEdge_edge v.panel.edgesMade (newEdge f t true v.panel)
  have hnew : (VisibleLocality.addEdge v.panel.edgesMade (newEdge f t true v.panel)).edge v.panel.edgesMade = ⟨f, t, true⟩ := by
    rw [hedge]
    exact Function.update_self ..
  obtain ⟨hkept, hsame⟩ := removeInvisible_edge
    (VisibleLocality.addEdge v.panel.edgesMade (newEdge f t true v.panel)).completeEltSet.edges.length _
    (show St.isVisible _ v.panel.edgesMade = true by rw [St.isVisible, hnew])
  have hlt : v.panel.edgesMade < (TGPanel.removeInvisible
      (VisibleLocality.addEdge v.panel.edgesMade (newEdge f t true v.panel)).completeEltSet.edges.length
      (VisibleLocality.addEdge v.panel.edgesMade (newEdge f t true v.panel))).edgesMade := by
    rw [hsame, hmade]
    exact Nat.lt_succ_self _
  obtain ⟨hbuilt, hle⟩ := buildInvisible_edge (TGPanel.partitions _) _ hlt
  have hends : (addConnect (connectNew f t v)).panel.edge v.panel.edgesMade = ⟨f, t, true⟩ := hbuilt.trans (hkept.trans hnew)
  have hmore : v.panel.edgesMade < (addConnect (connectNew f t v)).panel.edgesMade := Nat.lt_of_lt_of_le hlt hle
  obtain ⟨k, hk⟩ := Nat.exists_eq_add_of_lt hmore
  rw [newEdgeBetween, hk, show v.panel.edgesMade + k + 1 - v.panel.edgesMade = k + 1 by omega, List.range'_succ]
  exact List.find?_cons_of_pos (by simpa using hends)

omit [DecidableEq D] in
/-- `connect` is the edge of the element. -/
theorem connectEdge_connect (ntag fromID toID : String) (v : Viewer D) :
    (connectEdge ntag fromID toID v).connect = edgeBetween ntag fromID toID v := by
  have hkeep : ∀ w : Viewer D, (addConnect w).connect = w.connect := fun w => by
    unfold addConnect
    split
    · rfl
    · rfl
  unfold edgeBetween
  by_cases hm : ntag = "modify_edge"
  · simp only [connectEdge, hkeep, if_pos hm]
  · simp only [connectEdge, hkeep, if_neg hm, newEdgeBetween_eq]
    rfl

/-! ## One attribute -/

omit [DecidableEq D] in
theorem addConnect_connect (ht : (addConnect v).thrown = none) : ∃ e, (addConnect v).connect = some e := by
  unfold addConnect at ht ⊢
  cases hc : v.connect with
  | none => simp [hc] at ht
  | some e => exact ⟨e, rfl⟩

omit [DecidableEq D] in
theorem removeEdge_connect (fromID toID : String) (v : Viewer D) : (removeEdge fromID toID v).connect = v.connect := by
  unfold removeEdge
  split <;> rfl

omit [DecidableEq D] in
theorem quality_connect (env : Env D) (value : String) (v : Viewer D) : (quality env value v).connect = v.connect := by
  unfold quality
  split
  · rfl
  · split <;> rfl

/-- A node element is none of an edge. -/
theorem nodeElement_frame (env : Env D) (ntag id : String) (rest : Attributes) (v : Viewer D) :
    (nodeElement env ntag id rest v).connect = v.connect ∧ (nodeElement env ntag id rest v).color = v.color := by
  have hrule : ∀ node, ∀ w : Viewer D, w.connect = v.connect ∧ w.color = v.color →
      (nodeAttributes env node rest env.minValue env.minValue w).connect = v.connect ∧
        (nodeAttributes env node rest env.minValue env.minValue w).color = v.color := fun node w hw =>
    nodeAttributes_rule env (P := fun w => w.connect = v.connect ∧ w.color = v.color) node (fun _ _ _ _ h => h)
      (fun _ _ _ h => h) (fun _ _ _ _ _ h => h) (fun _ _ h => h) rest _ _ w hw
  have hf := addNew_frame id v
  unfold nodeElement
  split
  · exact hrule _ _ ⟨hf.connect, hf.color⟩
  · exact hrule _ _ ⟨rfl, rfl⟩

omit [DecidableEq D] in
/-- Only a `to` behind another attribute sets `connect`. -/
theorem attributeBranch_connect (env : Env D) (ntag : String) (prev : Option String) (name value : String) {v : Viewer D}
    (ht : (attributeBranch env ntag prev name value v).thrown = none) :
    if isEdge ntag = true ∧ prev.isSome = true ∧ toLowerCase name = "to" then
      ∃ e, (attributeBranch env ntag prev name value v).connect = some e
    else (attributeBranch env ntag prev name value v).connect = v.connect := by
  refine attributeBranch_rule env (P := fun w => w.thrown = none →
    if isEdge ntag = true ∧ prev.isSome = true ∧ toLowerCase name = "to" then ∃ e, w.connect = some e
    else w.connect = v.connect) ?_ ?_ ?_ ?_ ?_ ?_ ht
  · intro hid _ _
    rw [if_neg]
    · rfl
    · rintro ⟨-, -, hto⟩
      rw [hid] at hto
      exact absurd hto (by decide)
  · intro fromID hto hprev hedge ht
    rw [if_pos ⟨hedge, hprev ▸ rfl, hto⟩]
    unfold connectEdge at ht ⊢
    exact addConnect_connect ht
  · intro fromID _ _ hr _
    rw [if_neg]
    · exact removeEdge_connect fromID value v
    · rintro ⟨hedge, -, -⟩
      rw [hr] at hedge
      exact absurd hedge (by decide)
  · intro hval _
    rw [if_neg]
    · exact quality_connect env value v
    · rintro ⟨-, -, hto⟩
      rw [hval] at hto
      exact absurd hto (by decide)
  · intro hpix _
    rw [if_neg]
    · rfl
    · rintro ⟨-, -, hto⟩
      rw [hpix] at hto
      exact absurd hto (by decide)
  · intro _ hto _ _
    rw [if_neg]
    rintro ⟨hedge, hsome, hto'⟩
    obtain ⟨fromID, hprev⟩ := Option.isSome_iff_exists.1 hsome
    exact (hto fromID hto' hprev).1 hedge

theorem not_isEdge (h : isNode ntag = true) : isEdge ntag ≠ true := by
  intro he
  simp only [isNode, isNewNode, isEdge, Bool.or_eq_true, decide_eq_true_eq] at h he
  rcases h with (rfl | rfl) | rfl <;> simp at he

omit [DecidableEq D] in
/-- `connect` follows the edge of the element. -/
theorem attributeBranch_own (hedge : isEdge ntag = true) (prev : Option String) (name value : String)
    (ht : (attributeBranch env ntag prev name value v).thrown = none) :
    (attributeBranch env ntag prev name value v).connect = (ownAttribute ntag prev name value v).or v.connect ∧
      ((ownAttribute ntag prev name value v).isSome = true ↔ prev.isSome = true ∧ toLowerCase name = "to") := by
  have hc := attributeBranch_connect env ntag prev name value ht
  unfold ownAttribute
  by_cases hto : toLowerCase name = "to"
  · cases prev with
    | none =>
      rw [if_neg nofun] at hc
      rw [if_pos hto]
      exact ⟨hc, by simp⟩
    | some fromID =>
      rw [if_pos ⟨hedge, rfl, hto⟩] at hc
      obtain ⟨e, he⟩ := hc
      have hbranch : attributeBranch env ntag (some fromID) name value v = connectEdge ntag fromID value v := by
        unfold attributeBranch
        rw [if_neg (by rw [hto]; decide), if_pos hto]
        exact if_pos hedge
      have hbetween : edgeBetween ntag fromID value v = some e := by
        rw [← connectEdge_connect, ← hbranch, he]
      rw [if_pos hto, Option.bind_some, hbetween, he]
      exact ⟨rfl, by simp [hto]⟩
  · rw [if_neg fun h => hto h.2.2] at hc
    rw [if_neg hto]
    exact ⟨hc, by simp [hto]⟩

/-- After the tag of an edge element `connect` is its edge, if it has got one. -/
theorem attributes_own (hedge : isEdge ntag = true) : ∀ (prev : Option String) (attrs : Attributes) (v : Viewer D),
    (attributes env ntag prev attrs v).thrown = none →
    (attributes env ntag prev attrs v).connect = (ownEdge env ntag prev attrs v).or v.connect ∧
      ((ownEdge env ntag prev attrs v).isSome = true ↔
        ∃ a ∈ if prev.isSome then attrs else attrs.tail, toLowerCase a.1 = "to")
  | prev, [], v, _ => ⟨rfl, by cases prev <;> simp [ownEdge]⟩
  | prev, (name, value) :: rest, v, ht => by
    unfold attributes at ht ⊢
    have hid : ¬(toLowerCase name = "id" ∧ isNode ntag = true) := fun h => not_isEdge h.2 hedge
    rw [if_neg hid] at ht ⊢
    dsimp only at ht ⊢
    cases hb : (attributeBranch env ntag prev name value v).thrown with
    | some x => simp [hb] at ht
    | none =>
      simp only [hb, Option.isSome_none, Bool.false_eq_true, if_false] at ht ⊢
      obtain ⟨hconnect, hsome⟩ := attributeBranch_own hedge prev name value hb
      obtain ⟨hrest, hlater⟩ := attributes_own hedge (some value) rest _ ht
      have hown : ownEdge env ntag prev ((name, value) :: rest) v =
          (ownEdge env ntag (some value) rest (attributeBranch env ntag prev name value v)).or
            (ownAttribute ntag prev name value v) := rfl
      rw [hrest, hconnect, hown, Option.or_assoc]
      refine ⟨rfl, ?_⟩
      rw [Option.isSome_or, Bool.or_eq_true, hlater, hsome]
      cases prev with
      | none => simp
      | some fromID => simp [or_comm]

omit [DecidableEq D] in
theorem value_recolours (env : Env D) (ntag : String) (prev : Option String) {name value : String} {v : Viewer D}
    (hname : toLowerCase name = "value") (ht : (attributeBranch env ntag prev name value v).thrown = none) :
    Recolours env v.connect value (attributeBranch env ntag prev name value) v := by
  have hquality : ∀ u : Viewer D, attributeBranch env ntag prev name value u = quality env value u := fun u => by
    unfold attributeBranch
    rw [if_neg (by rw [hname]; decide), if_neg (by rw [hname]; decide), if_pos hname]
  intro color
  rw [hquality] at ht ⊢
  unfold quality at ht ⊢
  cases hc : v.connect with
  | none => rfl
  | some e =>
    simp only [hc] at ht ⊢
    by_cases hp : '%' ∈ value.toList
    · rw [if_pos hp]
      rfl
    · rw [if_neg hp] at ht
      cases ht

/-! ## The marks are the edges -/

/-- `f` gives the edges that the marks are of. -/
structure Marked (f : Nat → EdgeRef) (m : Mark) (v : Viewer D) : Prop where
  connect : v.connect = m.last.map f
  last : ∀ k ∈ m.last, k < m.made

theorem map_agree {f g : Nat → EdgeRef} {made : Nat} (h : ∀ k < made, g k = f k) {target : Option Nat}
    (ht : ∀ k ∈ target, k < made) : target.map g = target.map f :=
  Option.map_congr fun k hk => h k (ht k hk)

theorem Mark.attributes_other (hedge : isEdge ntag ≠ true) : ∀ (prev : Option String) (attrs : Attributes) (m : Mark),
    m.attributes ntag prev attrs = m
  | _, [], _ => rfl
  | prev, (name, value) :: rest, m => by
    rw [Mark.attributes, Mark.connect, if_neg (fun h => hedge h.1)]
    exact Mark.attributes_other hedge (some value) rest m

omit [DecidableEq D] in
/-- A branch moves the mark with `connect`. -/
theorem Marked.attributeBranch (h : Marked f m v) (prev : Option String) (name value : String)
    (ht : (attributeBranch env ntag prev name value v).thrown = none) :
    ∃ g, (∀ k < m.made, g k = f k) ∧ m.made ≤ (m.connect ntag prev name).made ∧
      Marked g (m.connect ntag prev name) (attributeBranch env ntag prev name value v) := by
  have hc := attributeBranch_connect env ntag prev name value ht
  unfold Mark.connect
  split
  · rename_i hto
    rw [if_pos hto] at hc
    obtain ⟨e, he⟩ := hc
    refine ⟨Function.update f m.made e, fun k hk => Function.update_of_ne (Nat.ne_of_lt hk) .., Nat.le_succ _, ?_, ?_⟩
    · rw [he, Option.map_some, Function.update_self]
    · rintro k ⟨⟩
      exact Nat.lt_succ_self _
  · rename_i hto
    rw [if_neg hto] at hc
    exact ⟨f, fun _ _ => rfl, Nat.le_refl _, hc.trans h.connect, h.last⟩

/-- The loop over the attributes. -/
theorem Marked.attributes (ntag : String) : ∀ (prev : Option String) (attrs : Attributes) (m : Mark) (v : Viewer D)
    (f : Nat → EdgeRef), Marked f m v → (attributes env ntag prev attrs v).thrown = none →
    ∃ g, (∀ k < m.made, g k = f k) ∧ m.made ≤ (m.attributes ntag prev attrs).made ∧
      Marked g (m.attributes ntag prev attrs) (attributes env ntag prev attrs v) ∧
      ∀ target, AttributesProper ntag target prev attrs m → AttributesReach env ntag (target.map g) prev attrs v
  | _, [], _, _, f, h, _ => ⟨f, fun _ _ => rfl, Nat.le_refl _, h, fun _ _ => trivial⟩
  | prev, (name, value) :: rest, m, v, f, h, ht => by
    unfold InputParser.attributes at ht ⊢
    by_cases hid : toLowerCase name = "id" ∧ isNode ntag = true
    · -- the node takes the rest
      rw [if_pos hid, Mark.attributes_other (not_isEdge hid.2)]
      obtain ⟨hconnect, hcolor⟩ := nodeElement_frame env ntag value rest v
      refine ⟨f, fun _ _ => rfl, Nat.le_refl _, ⟨hconnect.trans h.connect, h.last⟩, fun target hp => ?_⟩
      rw [AttributesProper, if_pos hid] at hp
      rw [AttributesReach, if_pos hid]
      intro a ha hname color
      rw [hp a ha hname, (nodeElement_frame env ntag value rest { v with color := color }).2]
      rfl
    · rw [if_neg hid] at ht ⊢
      dsimp only at ht ⊢
      cases hb : (InputParser.attributeBranch env ntag prev name value v).thrown with
      | some x => simp [hb] at ht
      | none =>
        simp only [hb, Option.isSome_none, Bool.false_eq_true, if_false] at ht ⊢
        obtain ⟨g, hg, hmade, hm⟩ := h.attributeBranch prev name value hb
        obtain ⟨g', hg', hmade', hm', hreach⟩ := Marked.attributes ntag (some value) rest _ _ g hm ht
        have hagree : ∀ k < m.made, g' k = f k := fun k hk => (hg' k (Nat.lt_of_lt_of_le hk hmade)).trans (hg k hk)
        refine ⟨g', hagree, Nat.le_trans hmade hmade', hm', fun target hp => ?_⟩
        rw [AttributesProper, if_neg hid] at hp
        rw [AttributesReach, if_neg hid]
        refine ⟨fun hname => ?_, hreach target hp.2⟩
        obtain rfl := hp.1 hname
        rw [map_agree hagree h.last, ← h.connect]
        exact value_recolours env ntag prev hname hb

theorem startElement_color (qName : String) (attrs : Attributes) (h : toLowerCase qName = "topology") (v : Viewer D) :
    (startElement env qName attrs v).connect = v.connect ∧ (startElement env qName attrs v).color = v.color := by
  rw [startElement, if_pos h]
  exact ⟨rfl, rfl⟩

/-- A start tag. -/
theorem Marked.startElement (h : Marked f m v) (qName : String) (attrs : Attributes)
    (ht : (startElement env qName attrs v).thrown = none) :
    ∃ g, (∀ k < m.made, g k = f k) ∧ m.made ≤ (m.attributes (toLowerCase qName) none attrs).made ∧
      Marked g (m.attributes (toLowerCase qName) none attrs) (startElement env qName attrs v) ∧
      ∀ target, TagProper qName attrs target m → TagReaches env qName attrs (target.map g) v := by
  by_cases htop : toLowerCase qName = "topology"
  · have hedge : isEdge (toLowerCase qName) ≠ true := by rw [htop]; decide
    rw [Mark.attributes_other hedge]
    refine ⟨f, fun _ _ => rfl, Nat.le_refl _, ⟨(startElement_color qName attrs htop v).1.trans h.connect, h.last⟩,
      fun target hp => ?_⟩
    rw [TagProper, if_pos htop] at hp
    rw [TagReaches, if_pos htop]
    intro a ha hname color
    rw [hp a ha hname, (startElement_color qName attrs htop _).2]
    rfl
  · rw [InputParser.startElement, if_neg htop] at ht ⊢
    obtain ⟨g, hg, hmade, hm, hreach⟩ := h.attributes (toLowerCase qName) none attrs _ _ _ ht
    refine ⟨g, hg, hmade, hm, fun target hp => ?_⟩
    rw [TagProper, if_neg htop] at hp
    rw [TagReaches, if_neg htop]
    exact hreach target hp

omit [DecidableEq D] in
theorem Marked.endElement (h : Marked f m v) (qName : String) : Marked f (m.endElement qName) (endElement qName v) := by
  unfold Mark.endElement InputParser.endElement
  dsimp only
  split
  · exact ⟨rfl, by rintro k ⟨⟩⟩
  · exact h

theorem thrown_of_parse : ∀ (events : List Xml.Event) (v : Viewer D), (parse env events v).thrown = none → v.thrown = none
  | [], _, h => h
  | ev :: events, v, h => by
    have hstep := thrown_of_parse events ((step env v (ofSax ev)).getD v) h
    by_cases ht : v.thrown.isSome = true
    · rwa [step, if_pos ht, Option.getD_none] at hstep
    · simpa using ht

/-- An element that throws nothing: its start tag, what stands in it, its end tag, and what stands behind it. -/
theorem parse_element {qName : String} {attrs : Attributes} {inner rest : Document}
    (h : (parse env (Document.element qName attrs inner rest).events v).thrown = none) :
    (startElement env qName attrs v).thrown = none ∧
      (parse env inner.events (startElement env qName attrs v)).thrown = none ∧
      parse env (Document.element qName attrs inner rest).events v =
        parse env rest.events (endElement qName (parse env inner.events (startElement env qName attrs v))) := by
  have hv := thrown_of_parse _ _ h
  rw [Document.events, parse_cons env hv, parse_append] at h ⊢
  have hinner : (parse env inner.events (startElement env qName attrs v)).thrown = none := thrown_of_parse _ _ h
  refine ⟨thrown_of_parse _ _ hinner, hinner, ?_⟩
  exact parse_cons env hinner _ _

theorem innerEdge_eq {g : Nat → EdgeRef} (qName : String) (attrs : Attributes) (outer : Option Nat)
    (ht : (startElement env qName attrs v).thrown = none)
    (h : Marked g (m.attributes (toLowerCase qName) none attrs) (startElement env qName attrs v)) :
    innerEdge env qName attrs (outer.map g) v = (m.inner qName attrs outer).map g := by
  unfold innerEdge Mark.inner
  by_cases hedge : isEdge (toLowerCase qName) = true
  · have htop : toLowerCase qName ≠ "topology" := by
      intro htop
      rw [htop] at hedge
      exact absurd hedge (by decide)
    have hstart : startElement env qName attrs v = attributes env (toLowerCase qName) none attrs v := if_neg htop
    rw [if_pos hedge, if_pos hedge]
    obtain ⟨hconnect, hsome⟩ := attributes_own hedge none attrs v (by rw [← hstart]; exact ht)
    rw [hstart] at h
    by_cases hc : Connects (toLowerCase qName) attrs
    · obtain ⟨e, he⟩ := Option.isSome_iff_exists.1 (hsome.2 hc.2)
      rw [if_pos hc, ← h.connect, hconnect, he]
      rfl
    · rw [if_neg hc, Option.map_none, ← Option.not_isSome_iff_eq_none, hsome]
      exact fun hto => hc ⟨hedge, hto⟩
  · rw [if_neg hedge, if_neg hedge]

theorem Mark.inner_lt {qName : String} {attrs : Attributes} {outer : Option Nat} (houter : ∀ k ∈ outer, k < m.made)
    (hmade : m.made ≤ (m.attributes (toLowerCase qName) none attrs).made)
    (hlast : ∀ k ∈ (m.attributes (toLowerCase qName) none attrs).last, k < (m.attributes (toLowerCase qName) none attrs).made) :
    ∀ k ∈ m.inner qName attrs outer, k < (m.attributes (toLowerCase qName) none attrs).made := by
  unfold Mark.inner
  split
  · split
    · exact hlast
    · rintro k ⟨⟩
  · exact fun k hk => Nat.lt_of_lt_of_le (houter k hk) hmade

/-- The marks are the edges all the way, by induction on the document. -/
theorem Marked.parse : ∀ (d : Document) (outer : Option Nat) (m : Mark) (v : Viewer D) (f : Nat → EdgeRef), Marked f m v →
    (∀ k ∈ outer, k < m.made) → (parse env d.events v).thrown = none →
    ∃ g, (∀ k < m.made, g k = f k) ∧ m.made ≤ (Mark.parse d m).made ∧ Marked g (Mark.parse d m) (parse env d.events v) ∧
      (Proper d outer m → Reaches env d (outer.map g) v)
  | .nil, _, _, _, f, h, _, _ => ⟨f, fun _ _ => rfl, Nat.le_refl _, h, fun _ => trivial⟩
  | .element qName attrs inner rest, outer, m, v, f, h, houter, ht => by
    obtain ⟨htag, hinner, heq⟩ := parse_element ht
    rw [heq] at ht ⊢
    obtain ⟨g1, hg1, hmade1, hm1, hreach1⟩ := h.startElement qName attrs htag
    have hlt := Mark.inner_lt houter hmade1 hm1.last
    obtain ⟨g2, hg2, hmade2, hm2, hreach2⟩ := Marked.parse inner (m.inner qName attrs outer) _ _ g1 hm1 hlt hinner
    have hmade2' : m.made ≤ (Mark.endElement qName (Mark.parse inner (m.attributes (toLowerCase qName) none attrs))).made := by
      refine le_trans (Nat.le_trans hmade1 hmade2) (Nat.le_of_eq ?_)
      unfold Mark.endElement
      split <;> rfl
    obtain ⟨g3, hg3, hmade3, hm3, hreach3⟩ := Marked.parse rest outer _ _ g2 (hm2.endElement qName)
      (fun k hk => Nat.lt_of_lt_of_le (houter k hk) hmade2') ht
    have h12 : ∀ k < m.made, g2 k = g1 k := fun k hk => hg2 k (Nat.lt_of_lt_of_le hk hmade1)
    have h13 : ∀ k < m.made, g3 k = g1 k := fun k hk => (hg3 k (Nat.lt_of_lt_of_le hk hmade2')).trans (h12 k hk)
    have hedge : innerEdge env qName attrs (outer.map g3) v = (m.inner qName attrs outer).map g1 := by
      rw [map_agree h13 houter]
      exact innerEdge_eq qName attrs outer htag hm1
    refine ⟨g3, fun k hk => (h13 k hk).trans (hg1 k hk), Nat.le_trans hmade2' hmade3, hm3, fun hp => ⟨?_, ?_, hreach3 hp.2.2⟩⟩
    · rw [hedge]
      exact hreach1 _ hp.1
    · rw [hedge, ← map_agree hg2 hlt]
      exact hreach2 hp.2.1

/-- The mark of the edge that is in `connect` when the document starts. -/
def Mark.start : Option EdgeRef → Mark
  | none => ⟨0, none⟩
  | some _ => ⟨1, some 0⟩

omit [DecidableEq D] in
theorem Marked.start (v : Viewer D) : ∃ f, Marked f (Mark.start v.connect) v := by
  cases hc : v.connect with
  | none => exact ⟨fun _ => 0, hc, by rintro k ⟨⟩⟩
  | some e =>
    refine ⟨fun _ => e, hc, ?_⟩
    rintro k ⟨⟩
    exact Nat.lt_succ_self 0

/-- **In a document that throws nothing, each `value` recolours the edge of the innermost edge element around it, and
no edge outside of edge elements, if the last `to` or end tag of an edge before it is that element's.** -/
theorem quality_reaches (d : Document) (v : Viewer D) (ht : (parse env d.events v).thrown = none)
    (hp : Proper d none (Mark.start v.connect)) : Reaches env d none v := by
  obtain ⟨f, hf⟩ := Marked.start v
  obtain ⟨g, -, -, -, hreach⟩ := hf.parse d none _ _ f (by rintro k ⟨⟩) ht
  exact hreach hp

/-- An edge with a quality, and one around which another is modified. -/
def nested : Document :=
  .element "graph" []
    (.element "edge" [("from", "1"), ("to", "2")] (.element "quality" [("value", "50%")] .nil .nil)
      (.element "edge" [("from", "2"), ("to", "3")]
        (.element "modify_edge" [("from", "1"), ("to", "2"), ("value", "70%")] .nil .nil) .nil))
    .nil

theorem quality_reaches_nested : Reaches decimal nested none (init decimal) :=
  quality_reaches nested (init decimal) (by decide +kernel) (by decide +kernel)

/-- The `value` stands behind the edges. -/
def behind : Document :=
  .element "graph" []
    (.element "edge" [("from", "1"), ("to", "2")] .nil
      (.element "modify_edge" [("from", "1"), ("to", "2")] .nil (.element "quality" [("value", "50%")] .nil .nil)))
    .nil

/-- The end tag of `modify_edge` leaves the edge in `connect`. -/
theorem modify_edge_lingers : ¬∀ d : Document, (parse decimal d.events (init decimal)).thrown = none →
    Reaches decimal d none (init decimal) := by
  intro hall
  obtain ⟨-, ⟨-, -, -, -, htag, -⟩, -⟩ := hall behind (by decide +kernel)
  rw [TagReaches, if_neg (by decide), AttributesReach, if_neg (by decide)] at htag
  have hcolor := congrFun (htag.1 (by decide) fun _ => defaultColor) 1
  exact absurd hcolor (by decide +kernel)

end InputParser

end Topo
