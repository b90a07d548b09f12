import Lox.Session

/-!
The command line. The arguments ask for the help text, a script or the prompt; a script ends with a code
that tells how it went, and the prompt runs its lines in one session, whatever their outcomes.
-/
namespace Lox

structure Options where
  debugParse : Bool := false
  script : Option String := none
deriving DecidableEq, Repr

inductive Invocation where
  | run (options : Options)
  | help
  | misuse
deriving DecidableEq, Repr

namespace Invocation

def withScript? (o : Options) (path : String) : Option Options :=
  if o.script.isSome || path = "" then none else some { o with script := some path }

def ofOperands (o : Options) : List String → Invocation
  | [] => run o
  | path :: rest =>
    match withScript? o path with
    | some o => ofOperands o rest
    | none => misuse

/-- Reads arguments from left to right; the first request for help or misuse settles the result. A
lone dash is a path. -/
def ofArguments (o : Options) : List String → Invocation
  | [] => run o
  | arg :: rest =>
    if arg = "--" then ofOperands o rest
    else if arg = "--debug-parse" then
      if o.debugParse then misuse else ofArguments { o with debugParse := true } rest
    else if arg = "--help" || arg.startsWith "-h" then help
    else if arg.startsWith "-" && arg ≠ "-" then misuse
    else
      match withScript? o arg with
      | some o => ofArguments o rest
      | none => misuse

def helpText : String :=
  "Run a Lox script, or start a prompt when no script is given\n\n" ++
  "Usage: losk [OPTIONS] [SCRIPT]\n\n" ++
  "Arguments:\n" ++
  "  [SCRIPT]  Script to run\n\n" ++
  "Options:\n" ++
  "      --debug-parse  Print every parsed program in prefix form before running it\n" ++
  "  -h, --help         Print help\n"

end Invocation

inductive ReadFailure where
  | notFound
  | isDirectory
  | notUtf8
  | other (reason : String)
deriving DecidableEq, Repr

def ReadFailure.message : ReadFailure → String
  | notFound => "No such file or directory (os error 2)"
  | isDirectory => "Is a directory (os error 21)"
  | notUtf8 => "stream did not contain valid UTF-8"
  | other reason => reason

namespace ExitCode

def success : Nat := 0

def misuse : Nat := 64

def inputOutput : Nat := 74

end ExitCode

def decode (bytes : List UInt8) : Except ReadFailure String :=
  match String.fromUTF8? ⟨bytes.toArray⟩ with
  | some text => .ok text
  | none => .error .notUtf8

/-- The lines of an input, each with its line end; the last one may lack it. -/
def lines : List UInt8 → List (List UInt8)
  | [] => []
  | b :: rest =>
    if b = 10 then [b] :: lines rest
    else
      match lines rest with
      | [] => [[b]]
      | line :: more => (b :: line) :: more

namespace Session

def complain (s : Session) (text : String) : Session := s.mapConsole (·.report text)

/-- Runs a script, given what reading its file gave, and answers the exit code. -/
def runScript? (fuel : Nat) (s : Session) (path : String) (content : Except ReadFailure (List UInt8)) :
    Option (Nat × Session) :=
  match content.bind decode with
  | .error failure =>
    some (ExitCode.inputOutput,
      s.complain ("Could not read '" ++ path ++ "': " ++ failure.message ++ "\n"))
  | .ok source =>
    (s.run? fuel source).map fun (status, s) => (status.exitCode?.getD ExitCode.success, s)

def promptText : String := "> "

def printing (s : Session) (text : String) (next : Session → Option (Nat × Session)) :
    Option (Nat × Session) :=
  let (refusal, console) := s.world.console.print text
  let s := { s with world.console := console }
  match refusal with
  | none => next s
  | some reason => some (ExitCode.inputOutput, s.complain (reason ++ "\n"))

/-- Runs the prompt on the lines of its input and answers the exit code. -/
def prompt? (fuel : Nat) (s : Session) : List (List UInt8) → Option (Nat × Session)
  | [] =>
    s.printing promptText fun s => s.printing "\n" fun s => some (ExitCode.success, s)
  | line :: rest =>
    s.printing promptText fun s =>
      match decode line with
      | .error failure => some (ExitCode.inputOutput, s.complain (failure.message ++ "\n"))
      | .ok source =>
        match s.run? fuel source with
        | none => none
        | some (_, s) => prompt? fuel s rest

end Session

end Lox
