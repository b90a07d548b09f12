import Lox.Session
import Lox.Proofs.Relabelling.Diagnostic
import Lox.Proofs.Relabelling.Resolution

/-!
A run in two parts. It first prepares its source, which shows diagnostics and finds a program if there is
no static error; then it adopts the distances of that program and executes it.
-/
namespace Lox

namespace Console

def reportAll (c : Console) (ds : List Diagnostic) : Console :=
  ds.foldl (fun c d => c.report (d.text ++ "\n")) c

end Console

namespace Session

theorem report_eq (s : Session) (d : Diagnostic) :
    s.report d = s.mapConsole (·.report (d.text ++ "\n")) := rfl

@[simp] theorem mapConsole_mapConsole (s : Session) (f g : Console → Console) :
    (s.mapConsole f).mapConsole g = s.mapConsole fun c => g (f c) := rfl

theorem reportAll_eq_mapConsole (s : Session) (ds : List Diagnostic) :
    s.reportAll ds = s.mapConsole (·.reportAll ds) := by
  unfold reportAll
  induction ds generalizing s with
  | nil => rfl
  | cons d ds ih =>
    rw [List.foldl_cons, ih, report_eq, mapConsole_mapConsole]
    rfl

def skipSource (s : Session) (source : String) : Session :=
  { s with nextIndex := (Lox.scan s.nextIndex source).index + 1 }

def announce (debugParse : Bool) (program : List Stmt) (c : Console) : Console :=
  if debugParse then dump c program else c

theorem announce_eq (s : Session) (program : List Stmt) :
    (if s.debugParse then s.mapConsole (dump · program) else s) =
      s.mapConsole (announce s.debugParse program) := by
  unfold announce
  cases s.debugParse <;> rfl

/-- What a source shows before it is executed, and its program if it has no static error. -/
def prepare (s : Session) (source : String) : (Console → Console) × Option (List Stmt) :=
  let scanned := Lox.scan s.nextIndex source
  let lexical := scanned.errors.toList.map Diagnostic.lexical
  match parse scanned.tokens.toList with
  | .error faults =>
    (fun c => (c.reportAll lexical).reportAll (faults.map (.ofSyntaxError scanned.finish)), none)
  | .ok program =>
    if scanned.errors.isEmpty then
      if (resolve program).errors.isEmpty then
        (fun c => announce s.debugParse program (c.reportAll lexical), some program)
      else
        (fun c => (announce s.debugParse program (c.reportAll lexical)).reportAll
          ((resolve program).errors.map .scope), none)
    else (fun c => c.reportAll lexical, none)

def conclude : Option RuntimeError × Session → Status × Session
  | (none, s) => (.success, s)
  | (some e, s) => (.runtimeError, s.report (.runtime e))

/-- A run from what its source is prepared to. -/
def proceed? (fuel : Nat) (s : Session) : Option (List Stmt) → Option (Status × Session)
  | none => some (.staticError, s)
  | some program => ((s.adopt (resolve program).hops).execute? fuel program).map conclude

theorem runProgram?_eq (fuel : Nat) (s : Session) (program : List Stmt) :
    s.runProgram? fuel program =
      if (resolve program).errors.isEmpty then proceed? fuel s (some program)
      else proceed? fuel (s.mapConsole (·.reportAll ((resolve program).errors.map .scope))) none := by
  unfold runProgram? proceed?
  dsimp only
  rw [reportAll_eq_mapConsole]
  split
  · cases (s.adopt (resolve program).hops).execute? fuel program with
    | none => rfl
    | some outcome =>
      obtain ⟨e?, s'⟩ := outcome
      cases e? <;> rfl
  · rfl

theorem run?_eq (fuel : Nat) (s : Session) (source : String) :
    s.run? fuel source =
      proceed? fuel ((s.skipSource source).mapConsole (s.prepare source).1)
        (s.prepare source).2 := by
  unfold run? prepare scan
  simp only [reportAll_eq_mapConsole]
  cases parse (Lox.scan s.nextIndex source).tokens.toList with
  | error faults => rfl
  | ok program =>
    dsimp only
    rw [announce_eq, runProgram?_eq]
    split
    · split <;> rfl
    · rfl

end Session

end Lox
