import Mathlib.Logic.Function.Basic
import Mathlib.Data.List.ReduceOption
import SpringLabs.Terminated

/-!
# The shell of Lab 3

The loop of `my_shell.c` from the tokens of a line to what is to be done for it.  `XX__multiexec` and the
variables beside it live as long as the shell; `parseLine` says what they hold after a line, `none` being
a write outside an array.
-/

namespace SpringLabs.Shell

open Terminated

abbrev Token := String

abbrev Line := List Token

/-- A row of `XX__multiexec`; `none` is `NULL`. -/
abbrev Row := Vector (Option Token) 64

/-- The variables kept from line to line; there are 64 rows. -/
structure Vars where
  multiexec : ℕ → Row
  multisize : ℕ
  ismulti : Bool
  isparll : Bool

/-- `XX__multiexec[XX__multisize][k] = x`. -/
def Vars.put (v : Vars) (k : ℕ) (x : Option Token) : Option Vars :=
  if v.multisize < 64 then
    (write (v.multiexec v.multisize) k x).map fun row =>
      { v with multiexec := Function.update v.multiexec v.multisize row }
  else none

/-- `XX__multiexec[XX__multisize++][k] = NULL`. -/
def Vars.endRow (v : Vars) (k : ℕ) : Option Vars :=
  (v.put k none).map fun v => { v with multisize := v.multisize + 1 }

/-- One round of the loop over the tokens; `k` is the place in the current row. -/
def splitToken (s : Vars × ℕ) (token : Token) : Option (Vars × ℕ) :=
  let (v, k) := s
  if !v.isparll && token = "&&" then
    (v.endRow k).map fun v => ({ v with ismulti := true }, 0)
  else if !v.ismulti && token = "&&&" then
    (v.endRow k).map fun v => ({ v with isparll := true }, 0)
  else (v.put k (some token)).map fun v => (v, k + 1)

/-- The tokens of a row up to its `NULL`. -/
def Vars.argv (v : Vars) (j : ℕ) : List Token := (read Option.isNone (v.multiexec j)).reduceOption

/-- The rows below `XX__multisize`. -/
def Vars.rows (v : Vars) : List (List Token) := (List.range v.multisize).map v.argv

/-- `XX__multisize = 0; XX__ismulti = false; XX__isparll = false;`. -/
def Vars.reset (v : Vars) : Vars := { v with multisize := 0, ismulti := false, isparll := false }

/-- The six ways through the loop, and the end. -/
inductive Plan where
  | empty
  | exit
  | mixed
  | sequential (rows : List (List Token))
  | parallel (rows : List (List Token))
  | cd (argv : List Token)
  | single (argv : List Token) (background : Bool)
  deriving DecidableEq

/-- The command without its `&`. -/
def withoutAmpersand (tokens : Line) : List Token :=
  if tokens.getLast? = some "&" then tokens.dropLast else tokens

/-- One line: the variables after it, and what is to be done for it. -/
def parseLine (v : Vars) (tokens : Line) : Option (Vars × Plan) :=
  if tokens = [] then some (v, .empty)
  else if tokens.head? = some "exit" then some (v, .exit)
  else do
    let (v, k) ← tokens.foldlM splitToken (v, 0)
    let v ← v.endRow k
    if v.ismulti && v.isparll then return (v.reset, .mixed)
    else if v.ismulti then return ({ v with multisize := 0, ismulti := false }, .sequential v.rows)
    else if v.isparll then return ({ v with multisize := 0, isparll := false }, .parallel v.rows)
    else
      let argv := withoutAmpersand tokens
      if argv.head? = some "cd" then return (v, .cd argv)
      else return (v.reset, .single argv (tokens.getLast? = some "&"))

/-- A process is started, or the directory changed (or tried to be). -/
inductive Action where
  | run (argv : List Token) (background : Bool)
  | chdir (dir : Token)
  deriving DecidableEq

/-- `cd` with one argument; with none or more only a message is printed. -/
def changeDir (argv : List Token) : Option Action :=
  match argv with
  | [_, dir] => some (.chdir dir)
  | _ => none

/-- What the loops over the rows do for one of them. -/
def action (argv : List Token) : Option Action :=
  if argv.head? = some "cd" then changeDir argv else some (.run argv false)

/-- The commands and directory changes carried out, in order. -/
def Plan.actions : Plan → List Action
  | sequential rows => rows.filterMap action
  | parallel rows => rows.filterMap action
  | cd argv => (changeDir argv).toList
  | single argv background => [.run argv background]
  | _ => []

/-- The commands and directory changes carried out for a line. -/
def carriedOut (v : Vars) (tokens : Line) : Option (List Action) :=
  (parseLine v tokens).map fun r => r.2.actions

/-- A shell that has just been started; what `malloc` returned for the rows is arbitrary. -/
def fresh (multiexec : ℕ → Row) : Vars := ⟨multiexec, 0, false, false⟩

/-- Rows of null pointers. -/
def nulls : ℕ → Row := fun _ => Vector.replicate 64 none

/-- What is carried out for each line read, until the shell exits. -/
def session : Vars → List Line → List (Option (List Action))
  | _, [] => []
  | v, tokens :: lines =>
    match parseLine v tokens with
    | none => [none]
    | some (v, plan) => some plan.actions :: if plan = .exit then [] else session v lines

end SpringLabs.Shell
