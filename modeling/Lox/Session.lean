import Lox.Diagnostic
import Lox.Evaluation
import Lox.Parse.Stmt
import Lox.Syntax.Parenthesized

/-!
Sessions. A session runs one source after the other: variables, distances and token indices outlive a
run. A run scans, parses, resolves and executes its source, and stops at the first of these stages that
finds an error, but for lexical errors, behind which the source is parsed all the same.
-/
namespace Lox

inductive Status where
  | success
  | staticError
  | runtimeError
deriving DecidableEq, Repr

/-- The exit code of a script that ends so, if it is not the usual one. -/
def Status.exitCode? : Status → Option Nat
  | success => none
  | staticError => some 65
  | runtimeError => some 70

structure Session where
  /-- The index of the next token. -/
  nextIndex : Nat
  hops : HopTable
  world : World
  /-- Whether every parsed program is shown among the diagnostics before it runs. -/
  debugParse : Bool

/-- A bound on the depth of evaluations that no machine lives to reach. -/
def ampleFuel : Nat := Nat.pow 2 60

namespace Session

def initial (clock : Clock) (console : Console) : Session where
  nextIndex := 0
  hops := ∅
  world := .initial clock console
  debugParse := false

def mapConsole (s : Session) (f : Console → Console) : Session :=
  { s with world.console := f s.world.console }

def report (s : Session) (d : Diagnostic) : Session := s.mapConsole (·.report (d.text ++ "\n"))

def reportAll (s : Session) (ds : List Diagnostic) : Session := ds.foldl report s

/-- Scans a source. No two sources of a session share an index. -/
def scan (s : Session) (source : String) : Scan × Session :=
  let scanned := Lox.scan s.nextIndex source
  (scanned, { s with nextIndex := scanned.index + 1 })

/-- Shows statements line by line until a line is refused. -/
def dump (console : Console) : List Stmt → Console
  | [] => console
  | stmt :: rest =>
    match console.complain (stmt.parenthesized ++ "\n") with
    | (none, console) => dump console rest
    | (some _, console) => console

/-- Takes the distances of a program that resolved without errors. -/
def adopt (s : Session) (hops : List Hop) : Session :=
  { s with hops := hops.foldl (fun table hop => table.insert hop.token.index hop.distance) s.hops }

def executeTop (fuel : Nat) (ctx : Context) : List Stmt → Evaluation Unit
  | [] => return ()
  | stmt :: rest => do
    let _ ← execute fuel ctx stmt
    executeTop fuel ctx rest

/-- Executes a program, with its runtime error if it ends with one. -/
def execute? (fuel : Nat) (s : Session) (program : List Stmt) :
    Option (Option RuntimeError × Session) :=
  let ctx : Context := ⟨.distances s.hops, globalEnv, 0⟩
  match executeTop fuel ctx program s.world with
  | .ok _ world => some (none, { s with world })
  | .error e world => some (some e, { s with world })
  | .exhausted => none

def runProgram? (fuel : Nat) (s : Session) (program : List Stmt) : Option (Status × Session) :=
  let findings := resolve program
  if findings.errors.isEmpty then
    match (s.adopt findings.hops).execute? fuel program with
    | some (none, s) => some (.success, s)
    | some (some e, s) => some (.runtimeError, s.report (.runtime e))
    | none => none
  else some (.staticError, s.reportAll (findings.errors.map .scope))

/-- Runs a source. There is no answer only if `fuel` does not bound the depth of the evaluation. -/
def run? (fuel : Nat) (s : Session) (source : String) : Option (Status × Session) :=
  let (scanned, s) := s.scan source
  let s := s.reportAll (scanned.errors.toList.map .lexical)
  match parse scanned.tokens.toList with
  | .error faults =>
    some (.staticError, s.reportAll (faults.map (.ofSyntaxError scanned.finish)))
  | .ok program =>
    if scanned.errors.isEmpty then
      let s := if s.debugParse then s.mapConsole (dump · program) else s
      s.runProgram? fuel program
    else some (.staticError, s)

end Session

end Lox
