import Mathlib

/-!
# Documents of elements and attributes

`scan` reads a part of XML 1.0: the XML declaration, elements with attributes, white space between the tags. Names
are ASCII, values stand between quotation marks; there are no references, no other text and no other markup. What it accepts is well formed (the tags
match, no attribute of a tag comes twice, there is one root), and the events are the document's, with the attributes
of a tag in their order. A parser that knows more of XML `Conforms` if it reports the same.
-/

namespace Xml

abbrev Attributes := List (String × String)

inductive Event where
  | startElement (name : String) (attrs : Attributes)
  | endElement (name : String)
deriving DecidableEq, Repr

/-! ## Characters -/

/-- Production 3, `S`. -/
def isSpace (c : Char) : Bool := c = ' ' || c = '\t' || c = '\r' || c = '\n'

def isNameStart (c : Char) : Bool := c.isAlpha || c = '_'

def isNameChar (c : Char) : Bool := c.isAlphanum || c = '_' || c = '-' || c = '.'

/-- Production 2, `Char`, without the white space that is not the space. -/
def isChar (c : Char) : Bool := 0x20 ≤ c.val && c.val ≠ 0xFFFE && c.val ≠ 0xFFFF

/-- What stands for itself between quotation marks. -/
def isValueChar (c : Char) : Bool := isChar c && c ≠ '<' && c ≠ '&' && c ≠ '"'

/-! ## The scanner -/

/-- Where the scanner is. -/
inductive Mode where
  | content
  | markup
  | startName (name : List Char)
  | behind (name : String) (attrs : Attributes)
  | inTag (name : String) (attrs : Attributes)
  | attrName (name : String) (attrs : Attributes) (attr : List Char)
  | equals (name : String) (attrs : Attributes) (attr : String)
  | value (name : String) (attrs : Attributes) (attr : String) (val : List Char)
  | slash (name : String) (attrs : Attributes)
  | endName (name : List Char)
deriving DecidableEq, Repr

/-- `stack` are the open elements, the innermost first; `root` says that the root was opened. -/
structure Scanner where
  mode : Mode
  stack : List String
  root : Bool
  events : List Event
deriving DecidableEq, Repr

namespace Scanner

def goto (s : Scanner) (mode : Mode) : Scanner := { s with mode := mode }

def emit (s : Scanner) (events : List Event) : Scanner := { s with events := s.events ++ events }

/-- A start tag ends. -/
def push (s : Scanner) (name : String) (attrs : Attributes) : Scanner :=
  { mode := .content, stack := name :: s.stack, root := true, events := s.events ++ [.startElement name attrs] }

/-- What may stand behind the name of a start tag, and behind a value. -/
def tag (s : Scanner) (name : String) (attrs : Attributes) (c : Char) : Option Scanner :=
  if isSpace c then some (s.goto (.inTag name attrs))
  else if c = '/' then some (s.goto (.slash name attrs))
  else if c = '>' then some (s.push name attrs)
  else none

def step (s : Scanner) (c : Char) : Option Scanner :=
  match s.mode with
  | .content => if isSpace c then some s else if c = '<' then some (s.goto .markup) else none
  | .markup =>
    if c = '/' then some (s.goto (.endName []))
    else if isNameStart c ∧ (s.root = true → s.stack ≠ []) then some (s.goto (.startName [c]))
    else none
  | .startName name => if isNameChar c then some (s.goto (.startName (name ++ [c]))) else s.tag (String.ofList name) [] c
  | .behind name attrs => s.tag name attrs c
  | .inTag name attrs => if isNameStart c then some (s.goto (.attrName name attrs [c])) else s.tag name attrs c
  | .attrName name attrs attr =>
    if isNameChar c then some (s.goto (.attrName name attrs (attr ++ [c])))
    else if c = '=' ∧ String.ofList attr ∉ attrs.map Prod.fst then some (s.goto (.equals name attrs (String.ofList attr)))
    else none
  | .equals name attrs attr => if c = '"' then some (s.goto (.value name attrs attr [])) else none
  | .value name attrs attr val =>
    if c = '"' then some (s.goto (.behind name (attrs ++ [(attr, String.ofList val)])))
    else if isValueChar c then some (s.goto (.value name attrs attr (val ++ [c])))
    else none
  | .slash name attrs =>
    if c = '>' then some { s with mode := .content, root := true, events := s.events ++ [.startElement name attrs, .endElement name] }
    else none
  | .endName name =>
    if isNameChar c then some (s.goto (.endName (name ++ [c])))
    else match s.stack with
      | top :: stack =>
        if c = '>' ∧ String.ofList name = top then
          some { s with mode := .content, stack := stack, events := s.events ++ [.endElement top] }
        else none
      | [] => none

def run : Scanner → List Char → Option Scanner
  | s, [] => some s
  | s, c :: cs => (s.step c).bind fun s => run s cs

def start : Scanner := ⟨.content, [], false, []⟩

end Scanner

/-- Production 23, `XMLDecl`. -/
def declaration : List Char := "<?xml version=\"1.0\"?>".toList

def scan (text : List Char) : Option (List Event) :=
  (Scanner.start.run (if declaration <+: text then text.drop declaration.length else text)).bind fun s =>
    if s.mode = .content ∧ s.stack = [] ∧ s.root = true then some s.events else none

/-- The parser reports the events of every document that `scan` accepts. -/
def Conforms (sax : String → List Event) : Prop := ∀ text events, scan text.toList = some events → sax text = events

/-! ## Tags -/

def attrText (a : String × String) : List Char := ' ' :: (a.1.toList ++ '=' :: '"' :: (a.2.toList ++ ['"']))

def startTag (name : String) (attrs : Attributes) : List Char := '<' :: (name.toList ++ (attrs.flatMap attrText ++ ['>']))

def emptyTag (name : String) (attrs : Attributes) : List Char :=
  '<' :: (name.toList ++ (attrs.flatMap attrText ++ ['/', '>']))

def endTag (name : String) : List Char := '<' :: '/' :: (name.toList ++ ['>'])

def isName (s : String) : Bool :=
  match s.toList with
  | [] => false
  | c :: cs => isNameStart c && cs.all isNameChar

/-- A string that is its own value between quotation marks. -/
def Plain (s : String) : Prop := s.toList.all isValueChar = true

instance (s : String) : Decidable (Plain s) := inferInstanceAs (Decidable (_ = true))

/-- The attributes may stand in one tag. -/
structure WellFormed (attrs : Attributes) : Prop where
  name : ∀ a ∈ attrs, isName a.1 = true
  value : ∀ a ∈ attrs, Plain a.2
  unique : (attrs.map Prod.fst).Nodup

theorem isValueChar_of_digit {c : Char} (h : c.isDigit = true) : isValueChar c = true := by
  have hle : 48 ≤ c.val.toNat ∧ c.val.toNat ≤ 57 := by
    simpa [Char.isDigit, UInt32.le_iff_toNat_le] using h
  have hne : ∀ d : Char, d.val.toNat < 48 ∨ 57 < d.val.toNat → c ≠ d := by
    rintro d hd rfl
    omega
  have h1 : c ≠ '<' := hne _ (by decide)
  have h2 : c ≠ '&' := hne _ (by decide)
  have h3 : c ≠ '"' := hne _ (by decide)
  have h4 : isChar c = true := by
    simp only [isChar, Bool.and_eq_true, decide_eq_true_eq, UInt32.le_iff_toNat_le, ne_eq, ← UInt32.toNat_inj]
    refine ⟨⟨?_, ?_⟩, ?_⟩
    · show 32 ≤ c.val.toNat
      omega
    · show c.val.toNat ≠ 65534
      omega
    · show c.val.toNat ≠ 65535
      omega
  simp [isValueChar, h1, h2, h3, h4]

theorem Plain.append {s t : String} (hs : Plain s) (ht : Plain t) : Plain (s ++ t) := by
  rw [Plain, String.toList_append, List.all_append, hs, ht]
  rfl

theorem plain_nat (n : Nat) : Plain n.repr := by
  rw [Plain, Nat.toList_repr, List.all_eq_true]
  exact fun c hc => isValueChar_of_digit (Nat.isDigit_of_mem_toDigits (by decide) (by decide) hc)

theorem plain_int (i : Int) : Plain (toString i) := by
  rw [Int.toString_eq_repr, Int.repr_eq_if]
  split
  · exact plain_nat _
  · exact Plain.append (by decide) (plain_nat _)

namespace Scanner

variable {s t : Scanner} {name : String} {attrs done : Attributes}

theorem run_append (s : Scanner) (xs ys : List Char) : s.run (xs ++ ys) = (s.run xs).bind fun t => t.run ys := by
  induction xs generalizing s with
  | nil => rfl
  | cons c xs ih =>
    rw [List.cons_append, run, run, Option.bind_assoc]
    exact congrArg _ (funext fun t => ih t)

theorem run_trans {xs ys : List Char} (h : s.run xs = some t) : s.run (xs ++ ys) = t.run ys := by
  rw [run_append, h]
  rfl

theorem run_space {w : List Char} (hs : s.mode = .content) (hw : ∀ c ∈ w, isSpace c = true) : s.run w = some s := by
  induction w with
  | nil => rfl
  | cons c w ih =>
    have hc := hw c List.mem_cons_self
    simp only [run, step, hs, hc, if_true, Option.bind_some]
    exact ih fun c hc => hw c (List.mem_cons_of_mem _ hc)

/-! ### Names and values -/

/-- A mode that collects characters. -/
theorem run_collect {mode : List Char → Mode} {p : Char → Bool}
    (hstep : ∀ (s : Scanner) acc c, p c = true → (s.goto (mode acc)).step c = some (s.goto (mode (acc ++ [c]))))
    (s : Scanner) (acc : List Char) {cs : List Char} (h : ∀ c ∈ cs, p c = true) :
    (s.goto (mode acc)).run cs = some (s.goto (mode (acc ++ cs))) := by
  induction cs generalizing acc with
  | nil => rw [List.append_nil, run]
  | cons c cs ih =>
    rw [run, hstep s acc c (h c List.mem_cons_self), Option.bind_some]
    have := ih (acc ++ [c]) fun c hc => h c (List.mem_cons_of_mem _ hc)
    rwa [List.append_assoc] at this

theorem run_startName (s : Scanner) (acc : List Char) {cs : List Char} (h : ∀ c ∈ cs, isNameChar c = true) :
    (s.goto (.startName acc)).run cs = some (s.goto (.startName (acc ++ cs))) :=
  run_collect (fun s acc c hc => by simp [step, goto, hc]) s acc h

theorem run_attrName (s : Scanner) (acc : List Char) {cs : List Char} (h : ∀ c ∈ cs, isNameChar c = true) :
    (s.goto (.attrName name attrs acc)).run cs = some (s.goto (.attrName name attrs (acc ++ cs))) :=
  run_collect (fun s acc c hc => by simp [step, goto, hc]) s acc h

theorem run_endName (s : Scanner) (acc : List Char) {cs : List Char} (h : ∀ c ∈ cs, isNameChar c = true) :
    (s.goto (.endName acc)).run cs = some (s.goto (.endName (acc ++ cs))) :=
  run_collect (fun s acc c hc => by simp [step, goto, hc]) s acc h

theorem run_value (s : Scanner) (attr : String) (acc : List Char) {cs : List Char} (h : ∀ c ∈ cs, isValueChar c = true) :
    (s.goto (.value name attrs attr acc)).run cs = some (s.goto (.value name attrs attr (acc ++ cs))) := by
  refine run_collect (fun s acc c hc => ?_) s acc h
  have hq : c ≠ '"' := by rintro rfl; exact absurd hc (by decide)
  simp [step, goto, hc, hq]

/-! ### Tags -/

theorem isNameChar_of_start {c : Char} (h : isNameStart c = true) : isNameChar c = true := by
  simp only [isNameStart, isNameChar, Char.isAlphanum, Bool.or_eq_true] at h ⊢
  rcases h with h | h
  · exact .inl (.inl (.inl (.inl h)))
  · exact .inl (.inl (.inr h))

theorem isName_cases {n : String} (h : isName n = true) :
    ∃ c cs, n.toList = c :: cs ∧ isNameStart c = true ∧ ∀ c ∈ cs, isNameChar c = true := by
  unfold isName at h
  cases hn : n.toList with
  | nil => simp [hn] at h
  | cons c cs =>
    simp only [hn, Bool.and_eq_true, List.all_eq_true] at h
    exact ⟨c, cs, rfl, h.1, h.2⟩

theorem run_attrText (s : Scanner) {a : String × String} (hname : isName a.1 = true) (hvalue : Plain a.2)
    (hnew : a.1 ∉ done.map Prod.fst) :
    (s.goto (.behind name done)).run (attrText a) = some (s.goto (.behind name (done ++ [a]))) := by
  obtain ⟨c, cs, hc, hstart, hcs⟩ := isName_cases hname
  have hattr : String.ofList (c :: cs) = a.1 := by rw [← hc, String.ofList_toList]
  rw [attrText, hc, run]
  have h1 : (s.goto (.behind name done)).step ' ' = some (s.goto (.inTag name done)) := rfl
  rw [h1, Option.bind_some, List.cons_append, run]
  have h2 : (s.goto (.inTag name done)).step c = some (s.goto (.attrName name done [c])) := by
    simp [step, goto, hstart]
  rw [h2, Option.bind_some, run_trans (run_attrName s [c] hcs), run]
  have h3 : (s.goto (.attrName name done ([c] ++ cs))).step '=' = some (s.goto (.equals name done a.1)) := by
    have hno : isNameChar '=' = false := by decide
    simp only [List.singleton_append, step, goto, hno, hattr, Bool.false_eq_true, if_false, true_and]
    rw [if_pos hnew]
  rw [h3, Option.bind_some, run]
  have h4 : (s.goto (.equals name done a.1)).step '"' = some (s.goto (.value name done a.1 [])) := rfl
  rw [h4, Option.bind_some, run_trans (run_value s a.1 [] (List.all_eq_true.1 hvalue)), run]
  have h5 : (s.goto (.value name done a.1 ([] ++ a.2.toList))).step '"' = some (s.goto (.behind name (done ++ [a]))) := by
    simp [step, goto]
  rw [h5]
  rfl

theorem run_attrTexts (s : Scanner) : ∀ attrs done, WellFormed (done ++ attrs) →
    (s.goto (.behind name done)).run (attrs.flatMap attrText) = some (s.goto (.behind name (done ++ attrs)))
  | [], done, _ => by simp [run]
  | a :: attrs, done, h => by
    have hmem : a ∈ done ++ a :: attrs := by simp
    have hnew : a.1 ∉ done.map Prod.fst := by
      have hu := h.unique
      rw [List.map_append, List.nodup_append] at hu
      exact fun ha => hu.2.2 a.1 ha a.1 (by simp) rfl
    have heq : done ++ a :: attrs = (done ++ [a]) ++ attrs := by simp
    rw [List.flatMap_cons, run_trans (run_attrText s (h.name a hmem) (h.value a hmem) hnew), heq]
    exact run_attrTexts s attrs (done ++ [a]) (heq ▸ h)

/-- Behind the name, the name is complete. -/
theorem run_behind (s : Scanner) {acc : List Char} {c : Char} (hc : isNameChar c = false) (cs : List Char) :
    (s.goto (.startName acc)).run (c :: cs) = (s.goto (.behind (String.ofList acc) [])).run (c :: cs) := by
  have hstep : (s.goto (.startName acc)).step c = (s.goto (.behind (String.ofList acc) [])).step c := by
    simp only [step, goto, hc, Bool.false_eq_true, if_false]
    rfl
  rw [run, run, hstep]

/-- The part of a tag that `>` or `/>` ends. -/
theorem run_open (hs : s.mode = .content) (hroot : s.root = true → s.stack ≠ []) (hname : isName name = true)
    (h : WellFormed attrs) {c : Char} (hc : isNameChar c = false) (cs : List Char) :
    s.run ('<' :: (name.toList ++ (attrs.flatMap attrText ++ c :: cs))) =
      (s.goto (.behind name attrs)).run (c :: cs) := by
  obtain ⟨d, ds, hd, hstart, hds⟩ := isName_cases hname
  have hn : String.ofList (d :: ds) = name := by rw [← hd, String.ofList_toList]
  have h1 : s.step '<' = some (s.goto .markup) := by simp [step, hs, isSpace]
  have h2 : (s.goto .markup).step d = some (s.goto (.startName [d])) := by
    have hslash : d ≠ '/' := by rintro rfl; exact absurd hstart (by decide)
    simp only [step, goto, hslash, hstart, if_false]
    rw [if_pos ⟨trivial, hroot⟩]
  rw [run, h1, Option.bind_some, hd, List.cons_append, run, h2, Option.bind_some, run_trans (run_startName s [d] hds)]
  have hbehind : (s.goto (.startName ([d] ++ ds))).run (attrs.flatMap attrText ++ c :: cs) =
      (s.goto (.behind name [])).run (attrs.flatMap attrText ++ c :: cs) := by
    cases attrs with
    | nil => rw [← hn]; exact run_behind s hc cs
    | cons a attrs => rw [← hn]; exact run_behind s (by decide) _
  rw [hbehind, run_trans (run_attrTexts s attrs [] h), List.nil_append]

theorem run_startTag (hs : s.mode = .content) (hroot : s.root = true → s.stack ≠ []) (hname : isName name = true)
    (h : WellFormed attrs) : s.run (startTag name attrs) = some (s.push name attrs) := by
  rw [startTag, run_open hs hroot hname h (by decide)]
  rfl

theorem run_emptyTag (hs : s.mode = .content) (hroot : s.root = true) (hstack : s.stack ≠ []) (hname : isName name = true)
    (h : WellFormed attrs) :
    s.run (emptyTag name attrs) = some (s.emit [.startElement name attrs, .endElement name]) := by
  rw [emptyTag, run_open hs (fun _ => hstack) hname h (by decide)]
  obtain ⟨mode, stack, root, events⟩ := s
  obtain rfl : mode = .content := hs
  obtain rfl : root = true := hroot
  rfl

theorem run_endTag {stack : List String} (hs : s.mode = .content) (hstack : s.stack = name :: stack)
    (hname : isName name = true) :
    s.run (endTag name) = some { s with stack := stack, events := s.events ++ [.endElement name] } := by
  obtain ⟨d, ds, hd, hstart, hds⟩ := isName_cases hname
  have hall : ∀ c ∈ name.toList, isNameChar c = true := by
    rw [hd]
    intro c hc
    rcases List.mem_cons.1 hc with rfl | hc
    · exact isNameChar_of_start hstart
    · exact hds c hc
  have h1 : s.step '<' = some (s.goto .markup) := by simp [step, hs, isSpace]
  have h2 : (s.goto .markup).step '/' = some (s.goto (.endName [])) := rfl
  rw [endTag, run, h1, Option.bind_some, run, h2, Option.bind_some, run_trans (run_endName s [] hall), run]
  have h3 : (s.goto (.endName ([] ++ name.toList))).step '>' =
      some { s with stack := stack, events := s.events ++ [.endElement name] } := by
    have hno : isNameChar '>' = false := by decide
    simp [step, goto, hno, hstack, hs]
  rw [h3]
  rfl

end Scanner

/-! ## Documents -/

/-- Production 43: what stands between the tags of an element, with its events. -/
def Content (text : List Char) (events : List Event) : Prop :=
  ∀ s : Scanner, s.mode = .content → s.root = true → s.stack ≠ [] → s.run text = some (s.emit events)

variable {name : String} {attrs : Attributes} {text text' w : List Char} {events events' : List Event}

namespace Content

theorem space (hw : ∀ c ∈ w, isSpace c = true) : Content w [] := fun s hs _ _ => by
  rw [s.run_space hs hw, Scanner.emit, List.append_nil]

theorem emptyTag (hname : isName name = true) (h : WellFormed attrs) :
    Content (emptyTag name attrs) [.startElement name attrs, .endElement name] :=
  fun _ hs hroot hstack => Scanner.run_emptyTag hs hroot hstack hname h

theorem append (h : Content text events) (h' : Content text' events') : Content (text ++ text') (events ++ events') := by
  intro s hs hroot hstack
  rw [Scanner.run_trans (h s hs hroot hstack), h' (s.emit events) hs hroot hstack, Scanner.emit, Scanner.emit, Scanner.emit]
  exact congrArg (fun l => some { s with events := l }) (List.append_assoc ..)

theorem spaced {w' : List Char} (hw : ∀ c ∈ w, isSpace c = true) (h : Content text events)
    (hw' : ∀ c ∈ w', isSpace c = true) : Content (w ++ (text ++ w')) events := by
  have := (space hw).append (h.append (space hw'))
  rwa [List.append_nil, List.nil_append] at this

theorem element (hname : isName name = true) (ha : WellFormed attrs) (h : Content text events) :
    Content (startTag name attrs ++ (text ++ endTag name)) (.startElement name attrs :: (events ++ [.endElement name])) := by
  intro s hs hroot hstack
  rw [Scanner.run_trans (Scanner.run_startTag hs (fun _ => hstack) hname ha),
    Scanner.run_trans (h (s.push name attrs) rfl rfl (List.cons_ne_nil _ _)),
    Scanner.run_endTag (s := (s.push name attrs).emit events) rfl rfl hname]
  obtain ⟨mode, stack, root, done⟩ := s
  obtain rfl : mode = .content := hs
  obtain rfl : root = true := hroot
  simp [Scanner.push, Scanner.emit]

theorem flatMap {α : Type*} {l : List α} {f : α → List Char} {g : α → List Event} (h : ∀ a ∈ l, Content (f a) (g a)) :
    Content (l.flatMap f) (l.flatMap g) := by
  induction l with
  | nil => exact space (by simp)
  | cons a l ih =>
    rw [List.flatMap_cons, List.flatMap_cons]
    exact (h a List.mem_cons_self).append (ih fun a ha => h a (List.mem_cons_of_mem _ ha))

end Content

/-- Productions 1 and 22. -/
theorem scan_document (hname : isName name = true) (ha : WellFormed attrs) (h : Content text events)
    {w' : List Char} (hw : ∀ c ∈ w, isSpace c = true) (hw' : ∀ c ∈ w', isSpace c = true) :
    scan (declaration ++ (w ++ (startTag name attrs ++ (text ++ (endTag name ++ w'))))) =
      some (.startElement name attrs :: (events ++ [.endElement name])) := by
  rw [scan, if_pos (List.prefix_append ..), List.drop_left, Scanner.run_trans (Scanner.run_space rfl hw),
    Scanner.run_trans (Scanner.run_startTag rfl (by rintro ⟨⟩) hname ha),
    Scanner.run_trans (h (Scanner.start.push name attrs) rfl rfl (List.cons_ne_nil _ _)),
    Scanner.run_trans (Scanner.run_endTag (s := (Scanner.start.push name attrs).emit events) rfl rfl hname),
    Scanner.run_space rfl hw']
  simp [Scanner.push, Scanner.emit, Scanner.start]

end Xml
