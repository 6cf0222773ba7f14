import Awds.Topo.Parser

/-!
# Which streams are parsed to their end

`Survives` says what an element may ask for in the state it comes in. `handle_thrown`: these are exactly the
elements that throw nothing.
-/

namespace Topo

namespace InputParser

variable {D : Type} [DecidableEq D] (env : Env D) {v v' : Viewer D}

/-! ## The condition -/

/-- The coordinate that `nodeAttributes` has read at the end. -/
def coordinate (name : String) (rest : Attributes) (x : D) : D :=
  rest.foldl (fun x a => if toLowerCase a.1 = name then (env.newDouble a.2).getD x else x) x

/-- Attributes that set nothing. -/
structure Idle (rest : Attributes) (x y : D) : Prop where
  name : ∀ a ∈ rest, toLowerCase a.1 ≠ "name"
  fixed : ∀ a ∈ rest, ¬(toLowerCase a.1 = "fixed" ∧ toLowerCase a.2 = "true")
  x : coordinate env "x" rest x = env.minValue
  y : coordinate env "y" rest y = env.minValue

/-- `modify_edge` finds an edge between its ends (with those that were missing), and a quality has a `%` while
there is an edge to set it for. -/
def AttributeOk (ntag : String) (prev : Option String) (name value : String) (v : Viewer D) : Prop :=
  (toLowerCase name = "to" → ntag = "modify_edge" → ∀ fromID ∈ prev,
    (VisibleLocality.findEdge (endNodes fromID value v).1 (endNodes fromID value v).2.1
      (endNodes fromID value v).2.2.panel).isSome) ∧
  (toLowerCase name = "value" → v.connect.isSome → '%' ∈ value.toList)

/-- Every attribute is fine in the state it is handled in; a `modify_node` that names no node sets nothing. -/
def ElementOk (ntag : String) : Option String → Attributes → Viewer D → Prop
  | _, [], _ => True
  | prev, (name, value) :: rest, v =>
    if toLowerCase name = "id" ∧ isNode ntag = true then
      isNewNode ntag = false → v.panel.completeEltSet.findNode value = none → Idle env rest env.minValue env.minValue
    else AttributeOk ntag prev name value v ∧ ElementOk ntag (some value) rest (attributeBranch env ntag prev name value v)

def Survives (v : Viewer D) : Event → Prop
  | .startElement qName attrs => toLowerCase qName = "topology" ∨ ElementOk env (toLowerCase qName) none attrs v
  | .endElement _ => True

instance (rest : Attributes) (x y : D) : Decidable (Idle env rest x y) :=
  decidable_of_iff ((∀ a ∈ rest, toLowerCase a.1 ≠ "name") ∧
      (∀ a ∈ rest, ¬(toLowerCase a.1 = "fixed" ∧ toLowerCase a.2 = "true")) ∧
      coordinate env "x" rest x = env.minValue ∧ coordinate env "y" rest y = env.minValue)
    ⟨fun h => ⟨h.1, h.2.1, h.2.2.1, h.2.2.2⟩, fun h => ⟨h.name, h.fixed, h.x, h.y⟩⟩

instance (ntag : String) (prev : Option String) (name value : String) (v : Viewer D) :
    Decidable (AttributeOk ntag prev name value v) := inferInstanceAs (Decidable (_ ∧ _))

def decElementOk (ntag : String) : (prev : Option String) → (attrs : Attributes) → (v : Viewer D) →
    Decidable (ElementOk env ntag prev attrs v)
  | _, [], _ => isTrue trivial
  | prev, (name, value) :: rest, v =>
    have := decElementOk ntag (some value) rest (attributeBranch env ntag prev name value v)
    inferInstanceAs (Decidable (if toLowerCase name = "id" ∧ isNode ntag = true then
      isNewNode ntag = false → v.panel.completeEltSet.findNode value = none → Idle env rest env.minValue env.minValue
      else AttributeOk ntag prev name value v ∧ _))

instance (v : Viewer D) : (ev : Event) → Decidable (Survives env v ev)
  | .startElement qName attrs =>
    have := decElementOk env (toLowerCase qName) none attrs v
    inferInstanceAs (Decidable (_ ∨ _))
  | .endElement _ => isTrue trivial

/-! ## What throws -/

/-- The panel and the counters apart. -/
structure Untouched (v v' : Viewer D) : Prop where
  thrown : v'.thrown = v.thrown
  nullEdge : v'.nullEdge = v.nullEdge
  connect : v'.connect = v.connect
  color : v'.color = v.color
  location : v'.location = v.location
  fixed : v'.fixed = v.fixed
  pix : v'.pixelForOneMeter = v.pixelForOneMeter

omit [DecidableEq D] in
theorem Untouched.trans {w : Viewer D} (h : Untouched v w) (h' : Untouched w v') : Untouched v v' :=
  ⟨h'.thrown.trans h.thrown, h'.nullEdge.trans h.nullEdge, h'.connect.trans h.connect, h'.color.trans h.color,
    h'.location.trans h.location, h'.fixed.trans h.fixed, h'.pix.trans h.pix⟩

omit [DecidableEq D] in
/-- Adding a node throws nothing that is not caught. -/
theorem addNew_frame (id : String) (v : Viewer D) : Untouched v (addNew id v) := by
  unfold addNew
  split <;> exact ⟨rfl, rfl, rfl, rfl, rfl, rfl, rfl⟩

omit [DecidableEq D] in
theorem endNodes_frame (fromID toID : String) (v : Viewer D) : Untouched v (endNodes fromID toID v).2.2 := by
  have hend : ∀ (found : Option NodeRef) (id : String) (v : Viewer D), Untouched v (endNode found id v).2 := by
    intro found id v
    cases found with
    | none => exact addNew_frame id v
    | some n => exact ⟨rfl, rfl, rfl, rfl, rfl, rfl, rfl⟩
  exact (hend _ _ _).trans (hend _ _ _)

/-- A node that is there takes all attributes. -/
theorem nodeAttributes_some (n : NodeRef) : ∀ (rest : Attributes) (x y : D) (v : Viewer D),
    (nodeAttributes env (some n) rest x y v).thrown = v.thrown ∧
      (nodeAttributes env (some n) rest x y v).nullEdge = v.nullEdge
  | [], x, y, v => by
    unfold nodeAttributes
    split <;> exact ⟨rfl, rfl⟩
  | (name, value) :: rest, x, y, v => by
    have ih := nodeAttributes_some n rest
    unfold nodeAttributes
    split
    · exact ih x y _
    · split
      · exact ih _ y v
      · split
        · exact ih x _ v
        · split
          · exact ih x y _
          · exact ih x y v

/-- A node that is not there takes none. -/
theorem nodeAttributes_none (h : v.thrown = none) : ∀ (rest : Attributes) (x y : D),
    ((nodeAttributes env none rest x y v).thrown = none ↔ Idle env rest x y) ∧
      (nodeAttributes env none rest x y v).nullEdge = v.nullEdge
  | [], x, y => by
    unfold nodeAttributes
    split
    · rename_i hxy
      exact ⟨⟨fun _ => ⟨by simp, by simp, hxy.1, hxy.2⟩, fun _ => h⟩, rfl⟩
    · rename_i hxy
      refine ⟨⟨fun ht => ?_, fun hi => absurd ⟨hi.x, hi.y⟩ hxy⟩, rfl⟩
      simp [deref] at ht
  | (name, value) :: rest, x, y => by
    have ih := nodeAttributes_none h rest
    -- an attribute that sets nothing leaves the question to the others
    have hcons : toLowerCase name ≠ "name" → ¬(toLowerCase name = "fixed" ∧ toLowerCase value = "true") →
        (Idle env ((name, value) :: rest) x y ↔ Idle env rest
          (if toLowerCase name = "x" then (env.newDouble value).getD x else x)
          (if toLowerCase name = "y" then (env.newDouble value).getD y else y)) := by
      intro hn hf
      constructor
      · exact fun hi => ⟨fun a ha => hi.name a (List.mem_cons_of_mem _ ha), fun a ha => hi.fixed a (List.mem_cons_of_mem _ ha),
          hi.x, hi.y⟩
      · refine fun hi => ⟨fun a ha => ?_, fun a ha => ?_, hi.x, hi.y⟩
        · rcases List.mem_cons.1 ha with rfl | ha
          · exact hn
          · exact hi.name a ha
        · rcases List.mem_cons.1 ha with rfl | ha
          · exact hf
          · exact hi.fixed a ha
    unfold nodeAttributes
    split
    · rename_i hn
      exact ⟨⟨fun ht => by simp [deref] at ht, fun hi => absurd hn (hi.name (name, value) List.mem_cons_self)⟩, rfl⟩
    · rename_i hn
      split
      · rename_i hx
        rw [hcons hn (by simp [hx]), if_pos hx, if_neg (by rw [hx]; decide)]
        exact ih _ y
      · rename_i hx
        split
        · rename_i hy
          rw [hcons hn (by simp [hy]), if_neg hx, if_pos hy]
          exact ih x _
        · rename_i hy
          split
          · rename_i hf
            exact ⟨⟨fun ht => by simp [deref] at ht, fun hi => absurd hf (hi.fixed (name, value) List.mem_cons_self)⟩, rfl⟩
          · rename_i hf
            rw [hcons hn hf, if_neg hx, if_neg hy]
            exact ih x y

theorem nodeElement_thrown (ntag : String) (h : v.thrown = none) (id : String) (rest : Attributes) :
    ((nodeElement env ntag id rest v).thrown = none ↔
        (isNewNode ntag = false → v.panel.completeEltSet.findNode id = none → Idle env rest env.minValue env.minValue)) ∧
      (nodeElement env ntag id rest v).nullEdge = v.nullEdge := by
  unfold nodeElement
  split
  · rename_i hn
    obtain ⟨ht, he⟩ := nodeAttributes_some env v.panel.nodesMade rest env.minValue env.minValue (addNew id v)
    have hf := addNew_frame id v
    refine ⟨iff_of_true (ht.trans (hf.thrown.trans h)) fun hno => ?_, he.trans hf.nullEdge⟩
    rw [hn] at hno
    cases hno
  · rename_i hn
    cases hf : v.panel.completeEltSet.findNode id with
    | none =>
      obtain ⟨ht, he⟩ := nodeAttributes_none env h rest env.minValue env.minValue
      exact ⟨ht.trans ⟨fun hi _ _ => hi, fun hi => hi (by simpa using hn) rfl⟩, he⟩
    | some n =>
      obtain ⟨ht, he⟩ := nodeAttributes_some env n rest env.minValue env.minValue v
      exact ⟨iff_of_true (ht.trans h) fun _ hnone => (nomatch hnone), he⟩

omit [DecidableEq D] in
theorem addConnect_thrown (h : v.thrown = none) :
    ((addConnect v).thrown = none ↔ v.connect.isSome) ∧
      ((addConnect v).thrown = none → (addConnect v).nullEdge = v.nullEdge) := by
  unfold addConnect
  split
  · rename_i hc
    simp [hc]
  · rename_i e hc
    simp [hc, h]

omit [DecidableEq D] in
theorem connectEdge_thrown (ntag : String) (h : v.thrown = none) (fromID toID : String) :
    ((connectEdge ntag fromID toID v).thrown = none ↔ (ntag = "modify_edge" →
        (VisibleLocality.findEdge (endNodes fromID toID v).1 (endNodes fromID toID v).2.1
          (endNodes fromID toID v).2.2.panel).isSome)) ∧
      ((connectEdge ntag fromID toID v).thrown = none → (connectEdge ntag fromID toID v).nullEdge = v.nullEdge) := by
  have hf := endNodes_frame fromID toID v
  unfold connectEdge
  dsimp only
  split
  · rename_i hm
    obtain ⟨h1, h2⟩ := addConnect_thrown (v := { (endNodes fromID toID v).2.2 with
      connect := VisibleLocality.findEdge (endNodes fromID toID v).1 (endNodes fromID toID v).2.1
        (endNodes fromID toID v).2.2.panel }) (hf.thrown.trans h)
    exact ⟨h1.trans ⟨fun hi _ => hi, fun hi => hi hm⟩, fun hi => (h2 hi).trans hf.nullEdge⟩
  · rename_i hm
    obtain ⟨h1, h2⟩ := addConnect_thrown
      (v := connectNew (endNodes fromID toID v).1 (endNodes fromID toID v).2.1 (endNodes fromID toID v).2.2) (hf.thrown.trans h)
    exact ⟨iff_of_true (h1.2 rfl) fun hi => absurd hi hm, fun hi => (h2 hi).trans hf.nullEdge⟩

omit [DecidableEq D] in
/-- The rule for one attribute: the branches of the handler, and what is known where none of them is taken. -/
theorem attributeBranch_rule {P : Viewer D → Prop} {ntag : String} {prev : Option String} {name value : String} {v : Viewer D}
    (hremoveNode : toLowerCase name = "id" → ntag = "remove_node" → P (removeNode value v))
    (hconnectEdge : ∀ fromID, toLowerCase name = "to" → prev = some fromID → isEdge ntag = true →
      P (connectEdge ntag fromID value v))
    (hremoveEdge : ∀ fromID, toLowerCase name = "to" → prev = some fromID → ntag = "remove_edge" →
      P (removeEdge fromID value v))
    (hquality : toLowerCase name = "value" → P (quality env value v))
    (hmetric : toLowerCase name = "pix" → P (metric env value v))
    (hother : (toLowerCase name = "id" → ntag ≠ "remove_node") →
      (∀ fromID, toLowerCase name = "to" → prev = some fromID → isEdge ntag ≠ true ∧ ntag ≠ "remove_edge") →
      toLowerCase name ≠ "value" → P v) :
    P (attributeBranch env ntag prev name value v) := by
  unfold attributeBranch
  by_cases hid : toLowerCase name = "id"
  · have hto : toLowerCase name ≠ "to" := by rw [hid]; decide
    have hval : toLowerCase name ≠ "value" := by rw [hid]; decide
    rw [if_pos hid]
    split
    · exact hremoveNode hid ‹_›
    · exact hother (fun _ => ‹_›) (fun _ hto' => absurd hto' hto) hval
  rw [if_neg hid]
  by_cases hto : toLowerCase name = "to"
  · have hval : toLowerCase name ≠ "value" := by rw [hto]; decide
    rw [if_pos hto]
    cases prev with
    | none => exact hother (fun hid' => absurd hid' hid) (fun _ _ hprev => nomatch hprev) hval
    | some fromID =>
      dsimp only
      by_cases hedge : isEdge ntag = true
      · rw [if_pos hedge]
        exact hconnectEdge fromID hto rfl hedge
      rw [if_neg hedge]
      split
      · exact hremoveEdge fromID hto rfl ‹_›
      · exact hother (fun hid' => absurd hid' hid) (fun _ _ _ => ⟨hedge, ‹_›⟩) hval
  rw [if_neg hto]
  by_cases hval : toLowerCase name = "value"
  · rw [if_pos hval]
    exact hquality hval
  rw [if_neg hval]
  split
  · exact hmetric ‹_›
  · exact hother (fun hid' => absurd hid' hid) (fun _ hto' => absurd hto' hto) hval

omit [DecidableEq D] in
/-- One attribute throws exactly where it is not fine. -/
theorem attributeBranch_thrown (ntag : String) (h : v.thrown = none) (prev : Option String) (name value : String) :
    ((attributeBranch env ntag prev name value v).thrown = none ↔ AttributeOk ntag prev name value v) ∧
      ((attributeBranch env ntag prev name value v).thrown = none →
        (attributeBranch env ntag prev name value v).nullEdge = v.nullEdge) := by
  refine attributeBranch_rule env (P := fun w => (w.thrown = none ↔ AttributeOk ntag prev name value v) ∧
    (w.thrown = none → w.nullEdge = v.nullEdge)) ?_ ?_ ?_ ?_ ?_ ?_
  · intro hid _
    refine ⟨iff_of_true h ⟨fun hto => ?_, fun hval => ?_⟩, fun _ => rfl⟩
    · rw [hid] at hto
      exact absurd hto (by decide)
    · rw [hid] at hval
      exact absurd hval (by decide)
  · rintro fromID hto rfl hedge
    obtain ⟨h1, h2⟩ := connectEdge_thrown ntag h fromID value
    refine ⟨h1.trans ⟨fun hi => ⟨fun _ hm _ hp => ?_, fun hval => ?_⟩, fun hi hm => hi.1 hto hm _ rfl⟩, h2⟩
    · obtain rfl := Option.some.inj hp
      exact hi hm
    · rw [hto] at hval
      exact absurd hval (by decide)
  · intro fromID hto _ hr
    have hok : AttributeOk ntag prev name value v := by
      refine ⟨fun _ hm => ?_, fun hval => ?_⟩
      · rw [hr] at hm
        exact absurd hm (by decide)
      · rw [hto] at hval
        exact absurd hval (by decide)
    unfold removeEdge
    split
    · exact ⟨iff_of_true h hok, fun _ => rfl⟩
    · exact ⟨iff_of_true h hok, fun _ => rfl⟩
  · intro hval
    have hto : toLowerCase name ≠ "to" := by rw [hval]; decide
    unfold quality
    cases hc : v.connect with
    | none =>
      refine ⟨iff_of_true h ⟨fun hto' => absurd hto' hto, fun _ hs => ?_⟩, fun _ => rfl⟩
      rw [hc] at hs
      cases hs
    | some e =>
      dsimp only
      split
      · rename_i hp
        exact ⟨iff_of_true h ⟨fun hto' => absurd hto' hto, fun _ _ => hp⟩, fun _ => rfl⟩
      · rename_i hp
        exact ⟨iff_of_false (fun ht => nomatch ht) fun hi => hp (hi.2 hval (hc ▸ rfl)), fun _ => rfl⟩
  · intro hpix
    refine ⟨iff_of_true h ⟨fun hto => ?_, fun hval => ?_⟩, fun _ => rfl⟩
    · rw [hpix] at hto
      exact absurd hto (by decide)
    · rw [hpix] at hval
      exact absurd hval (by decide)
  · intro _ hto hval
    refine ⟨iff_of_true h ⟨fun hto' hm fromID hprev => ?_, fun hval' => absurd hval' hval⟩, fun _ => rfl⟩
    exact absurd (hm ▸ rfl) (hto fromID hto' hprev).1

theorem attributes_thrown (ntag : String) : ∀ (prev : Option String) (attrs : Attributes) (v : Viewer D), v.thrown = none →
    ((attributes env ntag prev attrs v).thrown = none ↔ ElementOk env ntag prev attrs v) ∧
      ((attributes env ntag prev attrs v).thrown = none → (attributes env ntag prev attrs v).nullEdge = v.nullEdge)
  | _, [], _, h => ⟨iff_of_true h trivial, fun _ => rfl⟩
  | prev, (name, value) :: rest, v, h => by
    unfold attributes ElementOk
    split
    · obtain ⟨h1, h2⟩ := nodeElement_thrown env ntag h value rest
      exact ⟨h1, fun _ => h2⟩
    · obtain ⟨h1, h2⟩ := attributeBranch_thrown env ntag h prev name value
      dsimp only
      cases ht : (attributeBranch env ntag prev name value v).thrown with
      | some x =>
        have hno : ¬AttributeOk ntag prev name value v := fun hok => by
          rw [h1.2 hok] at ht
          cases ht
        refine ⟨iff_of_false ?_ fun hi => hno hi.1, fun hi => ?_⟩
        · simp [ht]
        · simp [ht] at hi
      | none =>
        obtain ⟨h3, h4⟩ := attributes_thrown ntag (some value) rest _ ht
        refine ⟨h3.trans (and_iff_right (h1.1 ht)).symm, fun hi => ?_⟩
        exact (h4 hi).trans (h2 ht)

/-- An event throws exactly where it does not survive. -/
theorem handle_thrown (h : v.thrown = none) (ev : Event) :
    ((handle env ev v).thrown = none ↔ Survives env v ev) ∧
      ((handle env ev v).thrown = none → (handle env ev v).nullEdge = v.nullEdge) := by
  cases ev with
  | startElement qName attrs =>
    simp only [handle, startElement, Survives]
    split
    · rename_i ht
      exact ⟨iff_of_true h (.inl ht), fun _ => rfl⟩
    · rename_i ht
      obtain ⟨h1, h2⟩ := attributes_thrown env (toLowerCase qName) none attrs v h
      exact ⟨h1.trans ⟨.inr, fun hi => hi.resolve_left ht⟩, h2⟩
  | endElement qName =>
    simp only [handle, endElement, Survives]
    split
    · exact ⟨iff_of_true h trivial, fun _ => rfl⟩
    · exact ⟨iff_of_true h trivial, fun _ => rfl⟩

/-! ## Runs -/

/-- **A stream in which every element survives is parsed to its end: nothing is thrown, and no set holds a null.
In the states it reaches, an element that does not survive is what would be thrown at.** -/
theorem stream_survives (h : Lts.Reach (step env) (Survives env) (init env) v) :
    (v.thrown = none ∧ v.nullEdge = false) ∧ ∀ ev, (handle env ev v).thrown = none ↔ Survives env v ev := by
  have hv : v.thrown = none ∧ v.nullEdge = false := by
    refine h.invariant (I := fun v => v.thrown = none ∧ v.nullEdge = false) ⟨rfl, rfl⟩ fun v ev v' hv ho hs => ?_
    obtain ⟨h1, h2⟩ := handle_thrown env hv.1 ev
    simp only [step, hv.1, Option.isSome_none, Bool.false_eq_true, if_false, Option.some.injEq] at hs
    rw [← hs]
    exact ⟨h1.2 ho, (h2 (h1.2 ho)).trans hv.2⟩
  exact ⟨hv, fun ev => (handle_thrown env hv.1 ev).1⟩

/-- Two nodes, an edge with its quality, a new label and a place. -/
def plainStream : List Event :=
  [.startElement "topology" [], .startElement "add_edge" [("from", "1"), ("to", "2")],
    .startElement "quality" [("value", "50%")], .endElement "quality", .endElement "add_edge",
    .startElement "modify_node" [("id", "1"), ("name", "a"), ("x", "10"), ("y", "20"), ("fixed", "true")],
    .startElement "remove_node" [("id", "3")]]

theorem plainStream_possible : (Lts.execOk (step decimal) (Survives decimal) (init decimal) plainStream).isSome = true := by
  decide +kernel

def plainViewer : Viewer Int :=
  (Lts.execOk (step decimal) (Survives decimal) (init decimal) plainStream).get plainStream_possible

theorem stream_survives_plain : (plainViewer.thrown = none ∧ plainViewer.nullEdge = false) ∧
    ∀ ev, (handle decimal ev plainViewer).thrown = none ↔ Survives decimal plainViewer ev :=
  stream_survives decimal (Lts.reach_get plainStream plainStream_possible)

/-- A label for a node that does not exist. -/
def labelStream : List Event := [.startElement "modify_node" [("id", "7"), ("name", "gateway")]]

theorem labelStream_possible : (Lts.execOk (step decimal) Lts.Any (init decimal) labelStream).isSome = true := by
  decide +kernel

/-- The stream ends with a `NullPointerException`. -/
theorem unknown_node_aborts :
    ¬∀ v, Lts.Reach (step decimal) Lts.Any (init decimal) v → v.thrown = none ∧ v.nullEdge = false := by
  intro hall
  have hv := hall _ (Lts.reach_get labelStream labelStream_possible)
  exact absurd hv.1 (by decide +kernel)

end InputParser

end Topo
