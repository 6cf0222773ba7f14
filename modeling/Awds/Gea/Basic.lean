import Mathlib

/-!
# GEA: time, handles, registrations

What both backends share (`gea/include/gea/`).

| here | there |
| --- | --- |
| `AbsTime`  | `AbsTime::v`, ticks of 2⁻²⁸ s (`Time.h:16-60`, `:98`) |
| `Status`   | `Handle::Status` (`Handle.h:18-24`) |
| `Handle`   | a `Handle *` |
| `Event`    | `EventHandler::Event`, a callback (`EventHandler.h:86`); never null here (`assert(e)` in `waitFor`) |
| `Reg`      | one `waitFor(h, timeout, e, data)`, numbered in the order of the calls (the number is ours) |

Handles are never destroyed here, so a `Handle *` is a number.
-/

namespace Gea

abbrev AbsTime := Int
abbrev Handle := Nat
abbrev Event := Nat
abbrev Data := Nat

/-- `Handle::Status` (`Handle.h:18`). -/
inductive Status where
  | undefined | error | blocked | timeout | ready
deriving DecidableEq, Repr

/-- The arguments of one `waitFor`, with the number of the call. -/
structure Reg where
  id : Nat
  h : Handle
  timeout : AbsTime
  e : Event
  data : Data
deriving DecidableEq, Repr

end Gea
