import Awds.Lib.CString
import Awds.Lib.Segments

/-!
# The commands of `gea_start`: `new_input`

| here | there |
| --- | --- |
| `parseCmd`       | `parse_cmd` (`gea_start.cc:53`) |
| `Input`          | `line` and `length` (:83), whether `new_input` is registered, whether `conf_fd` is closed |
| `Input.drain`    | the loop over the commands in `line` (:117) |
| `Input.newInput` | `new_input` (:81) |
| `Input.start`    | `interactive` (:139) |

`cmds` are the strings `parse_cmd` is called with, `started` what it hands to `run_gea_main`. `none` is an access
outside of a buffer, `argv` and its 100 entries included, a `length` that wraps around, or a call of `new_input` that
is not registered.
-/

namespace GeaStart

open CString Segments

def newline : UInt8 := 10

def semicolon : UInt8 := 59

/-- `"\n;"` -/
def endsCommand (c : UInt8) : Bool := c = newline ∨ c = semicolon

/-- `" \t"` -/
def separatesArgs (c : UInt8) : Bool := c = 32 ∨ c = 9

/-- The loop of `parse_cmd` (:66): the positions it stores, from `argv[0]` on. A token is never empty (:67). -/
def storeTokens (cmd : List UInt8) (pos : Nat) (argv : List Nat) : List UInt8 × List Nat :=
  match _h : strtok separatesArgs cmd pos with
  | none => (cmd, argv)
  | some (token, next, cmd') => storeTokens cmd' next (argv ++ [token])
termination_by cmd.length - pos
decreasing_by
  obtain ⟨hnext, hpos, hlen⟩ := strtok_lt _h
  omega

/-- `parse_cmd` (:53): the buffer behind it, and the arguments for `run_gea_main`, if it is called. -/
def parseCmd (cmd : List UInt8) : Option (List UInt8 × Option (List (List UInt8))) :=
  if cmd.head? = some 35 then some (cmd, none) -- a comment, '#'
  else
    let (cmd, argv) := storeTokens cmd 0 []
    -- the last store is `argv[argc] = 0` (:72), and no token is stored behind it
    if argv.length < 100 then
      some (cmd, if argv.length > 0 then some (argv.map fun token => str (cmd.drop token)) else none)
    else none

structure Input where
  line : Option (List UInt8)
  length : Nat
  registered : Bool
  closed : Bool
  cmds : List (List UInt8)
  started : List (List (List UInt8))
deriving DecidableEq

/-- What a call of `new_input` finds: the status is not `Ready`, or what `read` gives, nothing at the end of the
file. -/
inductive Event where
  | timeout
  | ready (buf : List UInt8)
deriving DecidableEq

/-- What `read` gives before the end of the file. -/
structure Chunk where
  bytes : List UInt8
  nonempty : bytes ≠ []
  bounded : bytes.length ≤ 10
  nulFree : 0 ∉ bytes
deriving DecidableEq

/-- What the descriptor delivers. -/
inductive Delivery where
  | timeout
  | chunk (c : Chunk)
deriving DecidableEq

namespace Delivery

def event : Delivery → Event
  | .timeout => .timeout
  | .chunk c => .ready c.bytes

def bytes : Delivery → List UInt8
  | .timeout => []
  | .chunk c => c.bytes

end Delivery

namespace Input

/-- The loop (:117), at most `fuel` rounds. -/
def drain (junk : UInt8) : Nat → Input → Option Input
  | 0, _ => none
  | fuel + 1, s => do
    let line ← s.line
    match ← strpbrk line [newline, semicolon] with
    | none => some s
    | some delim =>
      let line ← memcpy line delim [0]
      let (parsed, argv) ← parseCmd line
      if 1 + delim ≤ s.length then
        let length := s.length - (1 + delim)
        let newLine ← strcpy (malloc junk (length + 1)) (parsed.drop (delim + 1))
        drain junk fuel
          { s with line := some newLine, length, cmds := s.cmds ++ [str line], started := s.started ++ argv.toList }
      else none

/-- `new_input` (:81). -/
def newInput (junk : UInt8) (s : Input) : Event → Option Input
  | .timeout => some { s with registered := true }
  | .ready buf => do
    let eof := buf.isEmpty
    let buf := if eof then [newline] else buf
    let line := realloc junk s.line (s.length + buf.length + 1)
    let line ← memcpy line s.length buf
    let length := s.length + buf.length
    let line ← memcpy line length [0]
    let s ← drain junk (length + 1) { s with line := some line, length }
    if eof then some { s with closed := true } else some { s with registered := true }

/-- The event loop calls `new_input` if it is registered. -/
def dispatch (junk : UInt8) (s : Input) (ev : Event) : Option Input :=
  if s.registered then newInput junk { s with registered := false } ev else none

def run (junk : UInt8) (s : Input) (evs : List Event) : Option Input := evs.foldlM (dispatch junk) s

/-- `interactive` (:139). -/
def start : Input := ⟨none, 0, true, false, [], []⟩

/-- `strlen(line)` is `length`; no line is an empty one. -/
def Agrees (s : Input) : Prop :=
  match s.line with
  | none => s.length = 0
  | some line => strlen line = some s.length

end Input

/-- The commands of a stream: what is between the ends of commands, with a newline behind it all. -/
def commands (stream : List UInt8) : List (List UInt8) :=
  ((stream ++ [newline]).splitOnP endsCommand).dropLast

/-- `parse_cmd` stores no argument of a comment, and 99 words leave room for the null. -/
def FitsArgv (cmd : List UInt8) : Prop := cmd.head? = some 35 ∨ (words separatesArgs cmd).length ≤ 99

instance : DecidablePred FitsArgv := fun _ => inferInstanceAs (Decidable (_ ∨ _))

/-! ## The tokens are the words -/

theorem storeTokens_none {cmd : List UInt8} {pos : Nat} (h : strtok separatesArgs cmd pos = none) (argv : List Nat) :
    storeTokens cmd pos argv = (cmd, argv) := by
  rw [storeTokens]
  split
  · rfl
  · rename_i heq
    rw [h] at heq
    cases heq

theorem storeTokens_some {cmd cmd' : List UInt8} {pos token next : Nat}
    (h : strtok separatesArgs cmd pos = some (token, next, cmd')) (argv : List Nat) :
    storeTokens cmd pos argv = storeTokens cmd' next (argv ++ [token]) := by
  rw [storeTokens]
  split
  · rename_i heq
    rw [h] at heq
    cases heq
  · rename_i heq
    rw [h] at heq
    cases heq
    rfl

theorem word_at {word : List UInt8} (hnul : 0 ∉ word) {pre blanks t : List UInt8} :
    str ((pre ++ (blanks ++ word ++ 0 :: t)).drop (pre.length + blanks.length)) = word := by
  have h := drop_string hnul (pre ++ blanks) t
  rwa [List.length_append, List.append_assoc, ← List.append_assoc blanks] at h

/-- The words of the string behind `pre`. They stay where they are, whatever comes later. -/
theorem storeTokens_words (s : List UInt8) : ∀ (pre t : List UInt8) (tokens : List Nat), 0 ∉ s →
    ∃ left found, storeTokens (pre ++ (s ++ 0 :: t)) pre.length tokens = (pre ++ left, tokens ++ found) ∧
      found.map (fun token => str ((pre ++ left).drop token)) = words separatesArgs s := by
  induction s using word_induction (p := separatesArgs) with
  | none blanks hb =>
    intro pre t tokens hnul
    refine ⟨blanks ++ 0 :: t, [], ?_, by rw [words_delims hb, List.map_nil]⟩
    rw [storeTokens_none (strtok_none hb hnul pre t), List.append_nil]
  | last blanks word hb hw hne =>
    intro pre t tokens hnul
    have hnone : strtok separatesArgs (pre ++ (blanks ++ word) ++ ([] ++ 0 :: t)) (pre ++ (blanks ++ word)).length = none :=
      strtok_none (List.forall_mem_nil _) List.not_mem_nil _ t
    rw [List.length_append, List.nil_append, List.append_assoc] at hnone
    refine ⟨blanks ++ word ++ 0 :: t, [pre.length + blanks.length], ?_, ?_⟩
    · rw [storeTokens_some (strtok_last hb hw hne hnul pre t), storeTokens_none hnone]
    · rw [words_last hb hw hne, List.map_singleton, word_at (fun h => hnul (List.mem_append_right _ h))]
  | cut blanks word d s hb hw hne hd ih =>
    intro pre t tokens hnul
    have hword : 0 ∉ word := fun h => hnul (List.mem_append_left _ (List.mem_append_right _ h))
    have hs : 0 ∉ s := fun h => hnul (List.mem_append_right _ (List.mem_cons_of_mem d h))
    obtain ⟨left, found, hstore, hfound⟩ := ih (pre ++ (blanks ++ word ++ [0])) t (tokens ++ [pre.length + blanks.length]) hs
    have hleft : pre ++ (blanks ++ word ++ [0]) ++ left = pre ++ (blanks ++ word ++ 0 :: left) := by simp
    rw [hleft] at hstore hfound
    refine ⟨blanks ++ word ++ 0 :: left, (pre.length + blanks.length) :: found, ?_, ?_⟩
    · rw [storeTokens_some (strtok_cut hb hw hne hd hnul pre t), hstore, ← List.append_cons]
    · rw [words_cut hb hw hne hd, List.map_cons, hfound, word_at hword]

theorem head?_command {s : List UInt8} (h : s.head? ≠ some 35) (t : List UInt8) : (s ++ 0 :: t).head? ≠ some 35 := by
  cases s with
  | nil => simp
  | cons c s => exact h

/-- The tokens of a command are its words. -/
theorem storeTokens_command {s : List UInt8} (hnul : 0 ∉ s) (t : List UInt8) :
    ∃ left found, storeTokens (s ++ 0 :: t) 0 [] = (left, found) ∧ found.length = (words separatesArgs s).length ∧
      found.map (fun token => str (left.drop token)) = words separatesArgs s := by
  obtain ⟨left, found, hstore, hfound⟩ := storeTokens_words s [] t [] hnul
  exact ⟨left, found, hstore, by rw [← hfound, List.length_map], hfound⟩

/-! ## `parse_cmd` stays in its command -/

theorem storeTokens_frame (cmd : List UInt8) (pos : Nat) (argv : List Nat) :
    (storeTokens cmd pos argv).1.drop (pos + (str (cmd.drop pos)).length) =
      cmd.drop (pos + (str (cmd.drop pos)).length) := by
  fun_induction storeTokens cmd pos argv with
  | case1 => rfl
  | case2 cmd pos argv token next cmd' h ih =>
    obtain ⟨hend, hdrop⟩ := strtok_frame h
    rw [hend] at ih
    rw [ih, hdrop]

theorem drop_command (s t : List UInt8) : (s ++ 0 :: t).drop (s.length + 1) = t := by
  rw [← List.drop_drop, List.drop_left]
  rfl

theorem parseCmd_fits {s : List UInt8} (hnul : 0 ∉ s) (h : FitsArgv s) (t : List UInt8) :
    ∃ parsed args, parseCmd (s ++ 0 :: t) = some (parsed, args) ∧ parsed.drop (s.length + 1) = t := by
  by_cases hcomment : s.head? = some 35
  · have hhead : (s ++ 0 :: t).head? = some 35 := by rw [List.head?_append, hcomment, Option.some_or]
    exact ⟨s ++ 0 :: t, none, if_pos hhead, drop_command s t⟩
  · obtain ⟨left, found, hstore, hlen, -⟩ := storeTokens_command hnul t
    have hwords : found.length < 100 := by
      rw [hlen]
      exact Nat.lt_succ_of_le (h.resolve_left hcomment)
    have hframe := storeTokens_frame (s ++ 0 :: t) 0 []
    rw [List.drop_zero, str_append hnul, Nat.zero_add, hstore] at hframe
    refine ⟨left, if found.length > 0 then some (found.map fun token => str (left.drop token)) else none, ?_, ?_⟩
    · simp only [parseCmd, if_neg (head?_command hcomment t), hstore, if_pos hwords]
    · rw [← List.drop_drop, hframe, List.drop_drop, drop_command]

/-- A store goes behind `argv`. -/
theorem parseCmd_long {s : List UInt8} (hnul : 0 ∉ s) (h : ¬FitsArgv s) (t : List UInt8) : parseCmd (s ++ 0 :: t) = none := by
  obtain ⟨hcomment, hmany⟩ := not_or.1 h
  obtain ⟨left, found, hstore, hlen, -⟩ := storeTokens_command hnul t
  have hwords : ¬found.length < 100 := by
    rw [hlen]
    exact fun hlt => hmany (Nat.le_of_lt_succ hlt)
  simp only [parseCmd, if_neg (head?_command hcomment t), hstore, if_neg hwords]

/-! ## The loop over the commands -/

namespace Input

variable {junk : UInt8}

theorem findIdx?_free {s : List UInt8} (h : ∀ c ∈ s, endsCommand c = false) :
    s.findIdx? (· ∈ [newline, semicolon]) = none := by
  rw [List.findIdx?_eq_none_iff]
  intro c hc
  simpa [endsCommand] using h c hc

theorem findIdx?_cut {s : List UInt8} {d : UInt8} (hs : ∀ c ∈ s, endsCommand c = false) (hd : endsCommand d = true)
    (t : List UInt8) : (s ++ d :: t).findIdx? (· ∈ [newline, semicolon]) = some s.length := by
  have hd' : d = newline ∨ d = semicolon := by simpa [endsCommand] using hd
  rw [List.findIdx?_append, findIdx?_free hs, List.findIdx?_cons]
  simp [hd']

theorem drain_free {t : List UInt8} (ht : ∀ c ∈ t, endsCommand c = false) (hnul : 0 ∉ t) {s : Input}
    (hline : s.line = some (t ++ [0])) (fuel : Nat) : drain junk (fuel + 1) s = some s := by
  have hnone : strpbrk (t ++ [0]) [newline, semicolon] = some none := by rw [strpbrk_append hnul, findIdx?_free ht]
  simp only [drain, hline, Option.bind_eq_bind, Option.bind_some, hnone]

/-- A round, up to the command that it parses. -/
theorem drain_parse {a t : List UInt8} {d : UInt8} (ha : ∀ c ∈ a, endsCommand c = false) (hd : endsCommand d = true)
    (hnul : 0 ∉ a ++ d :: t) {s : Input} (hline : s.line = some (a ++ d :: t ++ [0])) (fuel : Nat) :
    drain junk (fuel + 1) s = (do
      let (parsed, argv) ← parseCmd (a ++ 0 :: (t ++ [0]))
      if 1 + a.length ≤ s.length then
        let length := s.length - (1 + a.length)
        let newLine ← strcpy (malloc junk (length + 1)) (parsed.drop (a.length + 1))
        drain junk fuel { s with line := some newLine, length, cmds := s.cmds ++ [a], started := s.started ++ argv.toList }
      else none) := by
  have hdelim : strpbrk (a ++ d :: t ++ [0]) [newline, semicolon] = some (some a.length) := by
    rw [strpbrk_append hnul, findIdx?_cut ha hd]
  have hna : 0 ∉ a := fun hmem => hnul (List.mem_append_left _ hmem)
  have hended : memcpy (a ++ d :: t ++ [0]) a.length [0] = some (a ++ 0 :: (t ++ [0])) := by
    have hcopy := memcpy_append (s := a) (t := [0]) [d] rfl (t ++ [0])
    simpa using hcopy
  simp only [drain, hline, Option.bind_eq_bind, Option.bind_some, hdelim, hended, str_append hna]

/-- One round: the first command is parsed, and the line is what is behind it. -/
theorem drain_cut {a t : List UInt8} {d : UInt8} (ha : ∀ c ∈ a, endsCommand c = false) (hd : endsCommand d = true)
    (hfits : FitsArgv a) (hnul : 0 ∉ a ++ d :: t) {s : Input} (hline : s.line = some (a ++ d :: t ++ [0]))
    (hlen : s.length = (a ++ d :: t).length) (fuel : Nat) : ∃ started, drain junk (fuel + 1) s = drain junk fuel
      { s with line := some (t ++ [0]), length := t.length, cmds := s.cmds ++ [a], started } := by
  have hna : 0 ∉ a := fun hmem => hnul (List.mem_append_left _ hmem)
  have hnt : 0 ∉ t := fun hmem => hnul (List.mem_append_right _ (List.mem_cons_of_mem d hmem))
  rw [List.length_append, List.length_cons] at hlen
  have hlt : 1 + a.length ≤ s.length := by omega
  have hleft : s.length - (1 + a.length) = t.length := by omega
  obtain ⟨parsed, args, hparse, hbehind⟩ := parseCmd_fits hna hfits (t ++ [0])
  refine ⟨s.started ++ args.toList, ?_⟩
  rw [drain_parse ha hd hnul hline]
  simp only [hparse, Option.bind_eq_bind, Option.bind_some, if_pos hlt, hleft, hbehind, strcpy_malloc hnt]

/-- The loop takes the commands out of the line that an end of a command ends, and leaves the rest; or one of them has
too many words. -/
theorem drain_cases (junk : UInt8) (t : List UInt8) : 0 ∉ t → ∀ (fuel : Nat) (s : Input), s.line = some (t ++ [0]) →
    s.length = t.length →
    (∀ c ∈ ended endsCommand t, FitsArgv c) ∧ (∃ started, drain junk (t.length + 1 + fuel) s = some { s with
      line := some (rest endsCommand t ++ [0]), length := (rest endsCommand t).length
      cmds := s.cmds ++ ended endsCommand t, started }) ∨
    (∃ c ∈ ended endsCommand t, ¬FitsArgv c) ∧ drain junk (t.length + 1 + fuel) s = none := by
  induction t using cut_induction (p := endsCommand) with
  | free t ht =>
    intro hnul fuel s hline hlen
    refine .inl ⟨?_, s.started, ?_⟩
    · rw [ended_free ht]
      exact List.forall_mem_nil _
    · rw [Nat.add_right_comm, drain_free ht hnul hline, rest_free ht, ended_free ht, List.append_nil, ← hline, ← hlen]
  | cut a d t ha hd ih =>
    intro hnul fuel s hline hlen
    have hnt : 0 ∉ t := fun hmem => hnul (List.mem_append_right a (List.mem_cons_of_mem d hmem))
    have hfuel : (a ++ d :: t).length + 1 + fuel = t.length + 1 + (a.length + fuel) + 1 := by
      rw [List.length_append, List.length_cons]
      omega
    rw [hfuel, ended_cut ha hd, rest_cut ha hd]
    by_cases hfits : FitsArgv a
    · obtain ⟨started, hround⟩ := drain_cut ha hd hfits hnul hline hlen (t.length + 1 + (a.length + fuel))
      rw [hround]
      have hnext := ih hnt (a.length + fuel)
        { s with line := some (t ++ [0]), length := t.length, cmds := s.cmds ++ [a], started } rfl rfl
      rcases hnext with ⟨hall, started', hdrain⟩ | ⟨⟨c, hc, hlong⟩, hdrain⟩
      · refine .inl ⟨List.forall_mem_cons.2 ⟨hfits, hall⟩, started', ?_⟩
        rw [hdrain, List.append_assoc, List.singleton_append]
      · exact .inr ⟨⟨c, List.mem_cons_of_mem a hc, hlong⟩, hdrain⟩
    · refine .inr ⟨⟨a, List.mem_cons_self, hfits⟩, ?_⟩
      rw [drain_parse ha hd hnul hline, parseCmd_long (fun hmem => hnul (List.mem_append_left _ hmem)) hfits]
      rfl

/-! ## One call -/

/-- What is read of a stream: the commands that have an end are parsed, and the line holds the rest. -/
structure Held (stream : List UInt8) (s : Input) : Prop where
  line : s.line = some (rest endsCommand stream ++ [0]) ∨ s.line = none ∧ rest endsCommand stream = []
  length : s.length = (rest endsCommand stream).length
  cmds : s.cmds = ended endsCommand stream
  fits : ∀ c ∈ s.cmds, FitsArgv c

/-- A command of a stream does not fit. -/
def Overlong (stream : List UInt8) : Prop := ∃ c ∈ ended endsCommand stream, ¬FitsArgv c

variable {stream : List UInt8} {s : Input}

theorem Held.agrees (h : s.Held stream) (hnul : 0 ∉ stream) : s.Agrees := by
  have hrest : 0 ∉ rest endsCommand stream := fun hmem => hnul (mem_of_mem_rest stream hmem)
  unfold Agrees
  rcases h.line with hline | ⟨hline, hempty⟩
  · rw [hline, h.length]
    exact strlen_append hrest []
  · rw [hline, h.length, hempty]
    rfl

theorem Held.prefix_line (h : s.Held stream) :
    rest endsCommand stream <+: s.line.getD [] ∧ (s.line.getD []).length ≤ s.length + 1 := by
  rcases h.line with hline | ⟨hline, hempty⟩
  · rw [hline, Option.getD_some, List.length_append, h.length]
    exact ⟨List.prefix_append _ _, le_rfl⟩
  · rw [hline, hempty]
    exact ⟨List.prefix_rfl, Nat.zero_le _⟩

theorem Overlong.append (h : Overlong stream) (read : List UInt8) : Overlong (stream ++ read) := by
  obtain ⟨c, hc, hlong⟩ := h
  refine ⟨c, ?_, hlong⟩
  rw [ended_append]
  exact List.mem_append_left _ hc

theorem Held.unregister (h : s.Held stream) : Held stream { s with registered := false } :=
  ⟨h.line, h.length, h.cmds, h.fits⟩

theorem Held.timeout (h : s.Held stream) (junk : UInt8) : ∃ s', newInput junk s .timeout = some s' ∧ s'.Held stream ∧
    s'.registered = true ∧ s'.closed = s.closed :=
  ⟨_, rfl, ⟨h.line, h.length, h.cmds, h.fits⟩, rfl, rfl⟩

/-- What is read, at the end of the file a newline, is appended to the line, and the commands in it are parsed, as far
as they fit. -/
theorem Held.ready (h : s.Held stream) (junk : UInt8) (hnul : 0 ∉ stream) {buf : List UInt8} (hbuf : 0 ∉ buf) :
    (∃ s', newInput junk s (.ready buf) = some s' ∧ s'.Held (stream ++ if buf.isEmpty then [newline] else buf) ∧
      s'.registered = (s.registered || !buf.isEmpty) ∧ s'.closed = (s.closed || buf.isEmpty)) ∨
    Overlong (stream ++ if buf.isEmpty then [newline] else buf) ∧ newInput junk s (.ready buf) = none := by
  have hread : 0 ∉ if buf.isEmpty then [newline] else buf := by
    split
    · decide
    · exact hbuf
  have hnew : newInput junk s (.ready buf) = (do
      let read := if buf.isEmpty then [newline] else buf
      let line ← memcpy (realloc junk s.line (s.length + read.length + 1)) s.length read
      let line ← memcpy line (s.length + read.length) [0]
      let s ← drain junk (s.length + read.length + 1) { s with line := some line, length := s.length + read.length }
      if buf.isEmpty then some { s with closed := true } else some { s with registered := true }) := rfl
  rw [hnew]
  generalize (if buf.isEmpty then [newline] else buf) = read at hread ⊢
  obtain ⟨hlead, hfits⟩ := h.prefix_line
  have hrest : 0 ∉ rest endsCommand stream ++ read := by
    rw [List.mem_append, not_or]
    exact ⟨fun hmem => hnul (mem_of_mem_rest stream hmem), hread⟩
  obtain ⟨copied, hcopy, hend⟩ := memcpy_string (take_realloc hlead (n := s.length + read.length + 1) (by omega) junk)
    (t := read) (by rw [length_realloc (by omega), h.length])
  rw [← h.length] at hcopy hend
  have hdrain := drain_cases junk _ hrest 0
    { s with line := some (rest endsCommand stream ++ read ++ [0]), length := s.length + read.length } rfl
    (by rw [List.length_append, h.length])
  rw [List.length_append, ← h.length, Nat.add_zero] at hdrain
  simp only [hcopy, Option.bind_eq_bind, Option.bind_some, hend]
  rcases hdrain with ⟨hall, started, hdrain⟩ | ⟨⟨c, hc, hlong⟩, hdrain⟩
  · have hheld : Held (stream ++ read)
        { s with
          line := some (rest endsCommand (rest endsCommand stream ++ read) ++ [0])
          length := (rest endsCommand (rest endsCommand stream ++ read)).length
          cmds := s.cmds ++ ended endsCommand (rest endsCommand stream ++ read), started } := by
      refine ⟨.inl ?_, ?_, ?_, List.forall_mem_append.2 ⟨h.fits, hall⟩⟩
      · rw [rest_append stream read]
      · rw [rest_append stream read]
      · rw [ended_append stream read, h.cmds]
    left
    rw [hdrain, Option.bind_some]
    cases buf.isEmpty with
    | true => exact ⟨_, rfl, ⟨hheld.line, hheld.length, hheld.cmds, hheld.fits⟩, by simp, by simp⟩
    | false => exact ⟨_, rfl, ⟨hheld.line, hheld.length, hheld.cmds, hheld.fits⟩, by simp, by simp⟩
  · refine .inr ⟨⟨c, ?_, hlong⟩, by rw [hdrain, Option.bind_none]⟩
    rw [ended_append]
    exact List.mem_append_right _ hc

/-! ## Runs -/

theorem run_cons (s : Input) (ev : Event) (evs : List Event) :
    s.run junk (ev :: evs) = (s.dispatch junk ev).bind fun s' => s'.run junk evs := rfl

theorem run_append (s : Input) (evs evs' : List Event) :
    s.run junk (evs ++ evs') = (s.run junk evs).bind fun s' => s'.run junk evs' := List.foldlM_append

/-- A delivery is read, and `new_input` waits for the next one; or a command is too long. -/
theorem Held.delivery (h : s.Held stream) (junk : UInt8) (hnul : 0 ∉ stream) (hr : s.registered = true) (d : Delivery) :
    (∃ s', s.dispatch junk d.event = some s' ∧ s'.Held (stream ++ d.bytes) ∧ s'.registered = true ∧
      s'.closed = s.closed) ∨
    Overlong (stream ++ d.bytes) ∧ s.dispatch junk d.event = none := by
  rw [dispatch, if_pos hr]
  cases d with
  | timeout =>
    obtain ⟨s', hs', hheld, hreg, hclosed⟩ := h.unregister.timeout junk
    refine .inl ⟨s', hs', ?_, hreg, hclosed⟩
    rwa [Delivery.bytes, List.append_nil]
  | chunk c =>
    have hbytes : c.bytes.isEmpty = false := List.isEmpty_eq_false_iff.2 c.nonempty
    rcases h.unregister.ready junk hnul c.nulFree with ⟨s', hs', hheld, hreg, hclosed⟩ | hlong
    · rw [hbytes] at hheld hreg hclosed
      rw [Bool.or_false] at hclosed
      exact .inl ⟨s', hs', hheld, hreg, hclosed⟩
    · rw [hbytes] at hlong
      exact .inr hlong

theorem Delivery.nulFree (d : Delivery) : 0 ∉ d.bytes := by
  cases d with
  | timeout => exact List.not_mem_nil
  | chunk c => exact c.nulFree

/-- Any number of deliveries. -/
theorem Held.deliveries (junk : UInt8) (ds : List Delivery) : ∀ (s : Input) (stream : List UInt8), s.Held stream → 0 ∉ stream →
    s.registered = true →
    (∃ s', s.run junk (ds.map Delivery.event) = some s' ∧ s'.Held (stream ++ ds.flatMap Delivery.bytes) ∧
      0 ∉ stream ++ ds.flatMap Delivery.bytes ∧ s'.registered = true ∧ s'.closed = s.closed) ∨
    Overlong (stream ++ ds.flatMap Delivery.bytes) ∧ s.run junk (ds.map Delivery.event) = none := by
  induction ds with
  | nil =>
    intro s stream h hnul hr
    rw [List.flatMap_nil, List.append_nil]
    exact .inl ⟨s, rfl, h, hnul, hr, rfl⟩
  | cons d ds ih =>
    intro s stream h hnul hr
    rw [List.map_cons, run_cons, List.flatMap_cons, ← List.append_assoc]
    rcases h.delivery junk hnul hr d with ⟨s₁, hs₁, hheld, hreg, hclosed⟩ | ⟨hlong, hs₁⟩
    · have hnul₁ : 0 ∉ stream ++ d.bytes := by
        rw [List.mem_append, not_or]
        exact ⟨hnul, Delivery.nulFree d⟩
      rw [hs₁, Option.bind_some, ← hclosed]
      exact ih s₁ _ hheld hnul₁ hreg
    · exact .inr ⟨hlong.append _, by rw [hs₁, Option.bind_none]⟩

theorem held_start : start.Held [] := ⟨.inr ⟨rfl, rfl⟩, rfl, rfl, List.forall_mem_nil _⟩

/-- All of a stream. -/
theorem start_deliveries (junk : UInt8) (ds : List Delivery) :
    (∃ s, start.run junk (ds.map Delivery.event ++ [.ready []]) = some s ∧
      s.Held (ds.flatMap Delivery.bytes ++ [newline]) ∧ 0 ∉ ds.flatMap Delivery.bytes ++ [newline] ∧
      s.registered = false ∧ s.closed = true) ∨
    Overlong (ds.flatMap Delivery.bytes ++ [newline]) ∧ start.run junk (ds.map Delivery.event ++ [.ready []]) = none := by
  rw [run_append]
  rcases Held.deliveries junk ds start [] held_start List.not_mem_nil rfl with ⟨s, hs, hheld, hnul, hreg, -⟩ | ⟨hlong, hs⟩
  · rw [List.nil_append] at hheld hnul
    rw [hs, Option.bind_some, run_cons, dispatch, if_pos hreg]
    rcases hheld.unregister.ready junk hnul List.not_mem_nil with ⟨s', hs', hheld', hreg', hclosed'⟩ | ⟨hlong, hs'⟩
    · refine .inl ⟨s', by rw [hs', Option.bind_some]; rfl, hheld', ?_, by simpa using hreg', by simpa using hclosed'⟩
      rw [List.mem_append, not_or]
      exact ⟨hnul, by decide⟩
    · exact .inr ⟨hlong, by rw [hs', Option.bind_none]⟩
  · rw [List.nil_append] at hlong
    exact .inr ⟨hlong.append _, by rw [hs, Option.bind_none]⟩

/-- After every call `length` is the length of the line; and with the end of the file every command of the stream was
parsed, once and in order, and the descriptor is closed. -/
def Splits (junk : UInt8) (ds : List Delivery) : Prop :=
  (∀ evs, evs <+: ds.map Delivery.event ++ [.ready []] → ∃ s, start.run junk evs = some s ∧ s.Agrees) ∧
    ∃ s, start.run junk (ds.map Delivery.event ++ [.ready []]) = some s ∧
      s.cmds = commands (ds.flatMap Delivery.bytes) ∧ s.closed = true ∧ s.registered = false

/-- **However a stream is delivered, it is split into its commands exactly if each of them fits into `argv`.** -/
theorem stream_commands (junk : UInt8) (ds : List Delivery) :
    Splits junk ds ↔ ∀ c ∈ commands (ds.flatMap Delivery.bytes), FitsArgv c := by
  constructor
  · rintro ⟨-, s, hs, hcmds, -⟩
    rcases start_deliveries junk ds with ⟨s', hs', hheld, -⟩ | ⟨-, hnone⟩
    · obtain rfl : s' = s := Option.some.inj (hs'.symm.trans hs)
      rw [← hcmds]
      exact hheld.fits
    · rw [hnone] at hs
      cases hs
  · intro hfits
    have hshort : ¬Overlong (ds.flatMap Delivery.bytes ++ [newline]) := fun ⟨c, hc, hlong⟩ => hlong (hfits c hc)
    rcases start_deliveries junk ds with ⟨s, hs, hheld, hnul, hreg, hclosed⟩ | ⟨hlong, -⟩
    · refine ⟨fun evs hevs => ?_, s, hs, hheld.cmds, hclosed, hreg⟩
      rcases List.prefix_concat_iff.1 hevs with rfl | hevs
      · exact ⟨s, hs, hheld.agrees hnul⟩
      · obtain ⟨ds', ⟨later, rfl⟩, rfl⟩ := List.prefix_map_iff.1 hevs
        rcases Held.deliveries junk ds' start [] held_start List.not_mem_nil rfl with ⟨s₁, hs₁, hheld₁, hnul₁, -⟩ | ⟨hlong, -⟩
        · exact ⟨s₁, hs₁, hheld₁.agrees hnul₁⟩
        · rw [List.nil_append] at hlong
          rw [List.flatMap_append, List.append_assoc] at hshort
          exact absurd (hlong.append _) hshort
    · exact absurd hlong hshort

-- `a;;b` without a newline at the end: three commands, of which one is empty
example : commands [97, 59, 59, 98] = [[97], [], [98]] := by decide

/-- `"a a a a a "` -/
def fiveWords : Chunk := ⟨[97, 32, 97, 32, 97, 32, 97, 32, 97, 32], by decide, by decide, by decide⟩

/-- A command of a hundred words. -/
theorem long_command : ¬∀ (junk : UInt8) (ds : List Delivery), Splits junk ds := by
  intro hall
  have hlong : ∃ c ∈ commands ((List.replicate 20 (.chunk fiveWords)).flatMap Delivery.bytes), ¬FitsArgv c := by
    decide +kernel
  obtain ⟨-, s, hs, hcmds, -⟩ := hall 0 (List.replicate 20 (.chunk fiveWords))
  rcases start_deliveries 0 (List.replicate 20 (.chunk fiveWords)) with ⟨s', hs', hheld, -⟩ | ⟨-, hnone⟩
  · obtain rfl : s' = s := Option.some.inj (hs'.symm.trans hs)
    obtain ⟨c, hc, hwords⟩ := hlong
    rw [← hcmds] at hc
    exact hwords (hheld.fits c hc)
  · rw [hnone] at hs
    cases hs

end Input

end GeaStart
