import Awds.Posix.GeaStart

/-!
# The arguments of a command: `parse_cmd`, with its array

| here | there |
| --- | --- |
| `Argv`                | `argv` (`gea_start.cc:61`) |
| `Locals`              | `token`, `argc` and `argv`, and the position `strtok` saves |
| `Locals.loop`         | the loop over the tokens (:66) |
| `Locals.parseCmd`     | `parse_cmd` (:53) |

Here every store into `argv` is made on its own, whatever `argv` holds before. `parse_cmd_bounded`: a command gets its
words as arguments if there are 99 of them at most, and writes behind the array otherwise. `parseCmd_outcome`: the run
comes to what `GeaStart.parseCmd` gives.
-/

namespace GeaStart

open CString Segments

abbrev Argv := Vector (Option Nat) 100

/-- `argv[i] = token` -/
def Argv.store (argv : Argv) (i : Nat) (token : Option Nat) : Option Argv :=
  if h : i < 100 then some (argv.set i token) else none

/-- Where a run is: it goes on, it has written behind an array, or it is over. -/
inductive Outcome (α : Type) where
  | running
  | outOfBounds
  | done (a : α)
deriving DecidableEq

structure Locals where
  cmd : List UInt8
  saved : Nat
  token : Option Nat
  argc : Nat
  argv : Argv

/-- What `run_gea_main` is called with. The entries of `argv` are those up to the null, as strings. -/
structure Call where
  argc : Nat
  argv : List (Option (List UInt8))
deriving DecidableEq

namespace Locals

/-- `token = strtok(.., " \t")` (:65, :70) -/
def nextToken (s : Locals) : Locals :=
  match strtok separatesArgs s.cmd s.saved with
  | none => { s with token := none }
  | some (token, next, cmd) => { s with cmd, saved := next, token := some token }

/-- At most `fuel` rounds. -/
def loop : Nat → Locals → Outcome Locals
  | 0, _ => .running
  | fuel + 1, s =>
    match s.token with
    | none => .done s
    | some token =>
      if s.cmd[token]? = some 0 then loop fuel s -- `continue`
      else
        match s.argv.store s.argc (some token) with
        | none => .outOfBounds
        | some argv => loop fuel { s with argv, argc := s.argc + 1 }.nextToken

/-- `parse_cmd` (:53). `junk` is what is in `argv` before. -/
def parseCmd (junk : Argv) (fuel : Nat) (cmd : List UInt8) : Outcome (Option Call) :=
  if cmd.head? = some 35 then .done none -- a comment, '#'
  else
    match loop fuel (nextToken ⟨cmd, 0, none, 0, junk⟩) with
    | .running => .running
    | .outOfBounds => .outOfBounds
    | .done s =>
      match s.argv.store s.argc none with
      | none => .outOfBounds
      | some argv =>
        let args := (argv.toList.take (s.argc + 1)).map (Option.map fun token => str (s.cmd.drop token))
        .done (if s.argc > 0 then some ⟨s.argc, args⟩ else none)

end Locals

/-! ## The loop stores the tokens -/

theorem length_le_storeTokens (cmd : List UInt8) (pos : Nat) (argv : List Nat) :
    argv.length ≤ (storeTokens cmd pos argv).2.length := by
  fun_induction storeTokens cmd pos argv with
  | case1 => exact le_rfl
  | case2 cmd pos argv token next cmd' h ih =>
    rw [List.length_append] at ih
    exact Nat.le_of_succ_le ih

theorem Argv.take_store {argv argv' : Argv} {i : Nat} {token : Option Nat} (h : argv.store i token = some argv') :
    argv'.toList.take (i + 1) = argv.toList.take i ++ [token] := by
  rw [Argv.store] at h
  split at h
  · rename_i hi
    cases h
    have hlt : i < (argv.toList.set i token).length := by simpa using hi
    rw [Vector.toList_set, List.take_succ_eq_append_getElem hlt, List.take_set_of_le le_rfl, List.getElem_set_self]
  · cases h

namespace Locals

variable {cmd cmd' : List UInt8} {saved pos next : Nat} {argv : Argv} {argc : Nat} {token : Option Nat}

theorem nextToken_none (h : strtok separatesArgs cmd pos = none) :
    nextToken ⟨cmd, pos, token, argc, argv⟩ = ⟨cmd, pos, none, argc, argv⟩ := by
  simp only [nextToken, h]

theorem nextToken_some {n : Nat} (h : strtok separatesArgs cmd pos = some (n, next, cmd')) :
    nextToken ⟨cmd, pos, token, argc, argv⟩ = ⟨cmd', next, some n, argc, argv⟩ := by
  simp only [nextToken, h]

/-- A round of the loop. The `continue` is not reached. -/
theorem loop_some {n : Nat} (h : strtok separatesArgs cmd pos = some (n, next, cmd')) (fuel : Nat) :
    loop (fuel + 1) (nextToken ⟨cmd, pos, token, argc, argv⟩) =
      match argv.store argc (some n) with
      | none => .outOfBounds
      | some argv' => loop fuel (nextToken ⟨cmd', next, some n, argc + 1, argv'⟩) := by
  rw [nextToken_some h]
  simp only [loop, if_neg (strtok_ne_zero h)]

/-- Tokens that `argv` has room for are stored. -/
theorem loop_done (cmd : List UInt8) (pos : Nat) (tokens : List Nat) (h : (storeTokens cmd pos tokens).2.length ≤ 100) :
    ∀ (fuel : Nat) (token : Option Nat) (argv : Argv), argv.toList.take tokens.length = tokens.map some →
      (storeTokens cmd pos tokens).2.length < tokens.length + fuel →
      ∃ saved argv', loop fuel (nextToken ⟨cmd, pos, token, tokens.length, argv⟩) =
          .done ⟨(storeTokens cmd pos tokens).1, saved, none, (storeTokens cmd pos tokens).2.length, argv'⟩ ∧
        argv'.toList.take (storeTokens cmd pos tokens).2.length = (storeTokens cmd pos tokens).2.map some := by
  fun_induction storeTokens cmd pos tokens with
  | case1 cmd pos tokens hnone =>
    intro fuel token argv hargv hfuel
    obtain ⟨fuel, rfl⟩ := Nat.exists_eq_succ_of_ne_zero (Nat.pos_of_lt_add_right hfuel).ne'
    rw [nextToken_none hnone]
    exact ⟨pos, argv, rfl, hargv⟩
  | case2 cmd pos tokens n next cmd' hsome ih =>
    intro fuel token argv hargv hfuel
    have hle := length_le_storeTokens cmd' next (tokens ++ [n])
    rw [List.length_append, List.length_singleton] at ih hle
    obtain ⟨fuel, rfl⟩ := Nat.exists_eq_succ_of_ne_zero (by omega : fuel ≠ 0)
    obtain ⟨argv', hstore⟩ : ∃ argv', argv.store tokens.length (some n) = some argv' := ⟨_, dif_pos (by omega)⟩
    rw [loop_some hsome, hstore]
    refine ih h fuel (some n) argv' ?_ (by omega)
    rw [Argv.take_store hstore, hargv, List.map_append, List.map_singleton]

/-- Of more tokens one is stored behind `argv`. -/
theorem loop_outOfBounds (cmd : List UInt8) (pos : Nat) (tokens : List Nat)
    (h : 100 < (storeTokens cmd pos tokens).2.length) :
    ∀ (fuel : Nat) (token : Option Nat) (argv : Argv), tokens.length ≤ 100 →
      (storeTokens cmd pos tokens).2.length < tokens.length + fuel →
      loop fuel (nextToken ⟨cmd, pos, token, tokens.length, argv⟩) = .outOfBounds := by
  fun_induction storeTokens cmd pos tokens with
  | case1 cmd pos tokens hnone =>
    intro fuel token argv hle
    exact absurd h (not_lt.2 hle)
  | case2 cmd pos tokens n next cmd' hsome ih =>
    intro fuel token argv hle hfuel
    rw [List.length_append, List.length_singleton] at ih
    obtain ⟨fuel, rfl⟩ := Nat.exists_eq_succ_of_ne_zero (by omega : fuel ≠ 0)
    rw [loop_some hsome]
    by_cases hlt : tokens.length < 100
    · obtain ⟨argv', hstore⟩ : ∃ argv', argv.store tokens.length (some n) = some argv' := ⟨_, dif_pos hlt⟩
      rw [hstore]
      exact ih h fuel (some n) argv' hlt (by omega)
    · have hstore : argv.store tokens.length (some n) = none := dif_neg hlt
      rw [hstore]

/-- What a run has come to does not depend on how much longer it could have gone on. -/
theorem loop_add {fuel : Nat} {s : Locals} (h : loop fuel s ≠ .running) (more : Nat) :
    loop (fuel + more) s = loop fuel s := by
  induction fuel generalizing s with
  | zero => exact absurd rfl h
  | succ fuel ih =>
    rw [Nat.succ_add]
    simp only [loop] at h ⊢
    cases htoken : s.token with
    | none => rfl
    | some token =>
      simp only [htoken] at h ⊢
      by_cases hnul : s.cmd[token]? = some 0
      · simp only [if_pos hnul] at h ⊢
        exact ih h
      · simp only [if_neg hnul] at h ⊢
        cases hstore : s.argv.store s.argc (some token) with
        | none => rfl
        | some argv =>
          simp only [hstore] at h ⊢
          exact ih h

end Locals

/-! ## The call -/

/-- What a command is expected to call `run_gea_main` with, if it has any words. -/
def callOf (args : List (List UInt8)) : Option Call :=
  if args = [] then none else some ⟨args.length, args.map some ++ [none]⟩

namespace Locals

variable {junk : Argv} {s : List UInt8}

theorem parseCmd_add {fuel : Nat} (h : parseCmd junk fuel s ≠ .running) (more : Nat) :
    parseCmd junk (fuel + more) s = parseCmd junk fuel s := by
  unfold parseCmd at h ⊢
  split
  · rfl
  · rename_i hcomment
    rw [if_neg hcomment] at h
    rw [loop_add]
    intro hrun
    rw [hrun] at h
    exact h rfl

theorem parseCmd_done {args : List (List UInt8)} {found : List Nat} {left : List UInt8} (hcomment : s.head? ≠ some 35)
    (hstore : storeTokens s 0 [] = (left, found)) (hargs : found.map (fun token => str (left.drop token)) = args)
    (h : found.length ≤ 99) : parseCmd junk (found.length + 1) s = .done (callOf args) := by
  have hdone := loop_done s 0 [] (by rw [hstore]; exact Nat.le_succ_of_le h) (found.length + 1) none junk List.take_zero
  rw [hstore] at hdone
  obtain ⟨saved, argv, hloop, hargv⟩ := hdone (by simp)
  obtain ⟨argv', hnull⟩ : ∃ argv', argv.store found.length none = some argv' := ⟨_, dif_pos (by omega)⟩
  rw [List.length_nil] at hloop
  rw [parseCmd, if_neg hcomment]
  simp only [hloop, hnull, Argv.take_store hnull, hargv]
  rw [callOf, ← hargs, List.map_append, List.map_map]
  cases found with
  | nil => rfl
  | cons n found => simp

/-- A hundred words leave no room for the null. -/
theorem parseCmd_outOfBounds {found : List Nat} {left : List UInt8} (hcomment : s.head? ≠ some 35)
    (hstore : storeTokens s 0 [] = (left, found)) (h : 99 < found.length) :
    parseCmd junk (found.length + 1) s = .outOfBounds := by
  rw [parseCmd, if_neg hcomment]
  by_cases hfull : found.length ≤ 100
  · have hdone := loop_done s 0 [] (by rwa [hstore]) (found.length + 1) none junk List.take_zero
    rw [hstore] at hdone
    obtain ⟨saved, argv, hloop, -⟩ := hdone (by simp)
    have hnull : argv.store found.length none = none := dif_neg (by omega)
    rw [List.length_nil] at hloop
    simp only [hloop, hnull]
  · have hloop := loop_outOfBounds s 0 [] (by rw [hstore]; exact not_le.1 hfull) (found.length + 1) none junk (Nat.zero_le _)
      (by rw [hstore]; simp)
    rw [List.length_nil] at hloop
    simp only [hloop]

end Locals

theorem parse_cmd_fits {s : List UInt8} (hnul : 0 ∉ s) (hcomment : s.head? ≠ some 35)
    (h : (words separatesArgs s).length ≤ 99) (junk : Argv) (t : List UInt8) :
    ∃ fuel, Locals.parseCmd junk fuel (s ++ 0 :: t) = .done (callOf (words separatesArgs s)) := by
  obtain ⟨left, found, hstore, hlen, hfound⟩ := storeTokens_command hnul t
  exact ⟨_, Locals.parseCmd_done (head?_command hcomment t) hstore hfound (by omega)⟩

/-- The run is over with a write behind `argv`, so that it does not come to anything else. -/
theorem parse_cmd_overflows {s : List UInt8} (hnul : 0 ∉ s) (hcomment : s.head? ≠ some 35)
    (h : 99 < (words separatesArgs s).length) (junk : Argv) (t : List UInt8) (call : Option Call) (fuel : Nat) :
    Locals.parseCmd junk fuel (s ++ 0 :: t) ≠ .done call := by
  obtain ⟨left, found, hstore, hlen, -⟩ := storeTokens_command hnul t
  intro hdone
  have hout : Locals.parseCmd junk (found.length + 1) (s ++ 0 :: t) = .outOfBounds :=
    Locals.parseCmd_outOfBounds (head?_command hcomment t) hstore (by omega)
  have hlater := Locals.parseCmd_add (by rw [hdone]; exact nofun) (found.length + 1)
  have hlater' := Locals.parseCmd_add (by rw [hout]; exact nofun) fuel
  rw [Nat.add_comm, hlater', hout, hdone] at hlater
  cases hlater

/-- A run is over with the call that `GeaStart.parseCmd` makes, or behind the array if it makes none. -/
theorem parseCmd_outcome {s : List UInt8} (hnul : 0 ∉ s) (junk : Argv) (t : List UInt8) :
    ∃ fuel, Locals.parseCmd junk fuel (s ++ 0 :: t) =
      match GeaStart.parseCmd (s ++ 0 :: t) with
      | none => .outOfBounds
      | some (_, none) => .done none
      | some (_, some args) => .done (callOf args) := by
  by_cases hcomment : (s ++ 0 :: t).head? = some 35
  · exact ⟨0, by simp only [Locals.parseCmd, GeaStart.parseCmd, if_pos hcomment]⟩
  · obtain ⟨left, found, hstore, hlen, hfound⟩ := storeTokens_command hnul t
    refine ⟨found.length + 1, ?_⟩
    simp only [GeaStart.parseCmd, if_neg hcomment, hstore]
    by_cases hwords : found.length < 100
    · rw [Locals.parseCmd_done hcomment hstore hfound (Nat.le_of_lt_succ hwords), if_pos hwords, hfound]
      by_cases hempty : found.length > 0
      · rw [if_pos hempty]
      · have hnone : words separatesArgs s = [] := List.length_eq_zero_iff.1 (by omega)
        rw [if_neg hempty, hnone]
        rfl
    · rw [Locals.parseCmd_outOfBounds hcomment hstore (by omega), if_neg hwords]

/-- **A command gets its words as arguments, in order and with a null behind them, exactly if there are 99 at most.** -/
theorem parse_cmd_bounded (junk : Argv) (s t : List UInt8) (hnul : 0 ∉ s) (hcomment : s.head? ≠ some 35) :
    (∃ fuel, Locals.parseCmd junk fuel (s ++ 0 :: t) = .done (callOf (words separatesArgs s))) ↔
      (words separatesArgs s).length ≤ 99 := by
  constructor
  · rintro ⟨fuel, hdone⟩
    by_contra hmany
    exact parse_cmd_overflows hnul hcomment (not_le.1 hmany) junk t _ fuel hdone
  · intro h
    exact parse_cmd_fits hnul hcomment h junk t

/-- `"a  bc\t"` -/
theorem parse_cmd_bounded_two :
    (∃ fuel, Locals.parseCmd (Vector.replicate 100 none) fuel ([97, 32, 32, 98, 99, 9] ++ 0 :: []) =
      .done (callOf (words separatesArgs [97, 32, 32, 98, 99, 9]))) ↔
        (words separatesArgs [97, 32, 32, 98, 99, 9]).length ≤ 99 :=
  parse_cmd_bounded (Vector.replicate 100 none) [97, 32, 32, 98, 99, 9] [] (by decide) (by decide)

/-- `"a a a ..."`, a hundred words -/
def hundredWords : List UInt8 := (List.replicate 100 [97, 32]).flatten

theorem argv_overflow : ¬∀ (junk : Argv) (s t : List UInt8), 0 ∉ s → s.head? ≠ some 35 →
    ∃ fuel, Locals.parseCmd junk fuel (s ++ 0 :: t) = .done (callOf (words separatesArgs s)) := by
  intro hall
  have hnul : 0 ∉ hundredWords := by decide +kernel
  have hcomment : hundredWords.head? ≠ some 35 := by decide +kernel
  have hmany : 99 < (words separatesArgs hundredWords).length := by decide +kernel
  obtain ⟨fuel, hdone⟩ := hall (Vector.replicate 100 none) hundredWords [] hnul hcomment
  exact parse_cmd_overflows hnul hcomment hmany _ [] _ fuel hdone

end GeaStart
