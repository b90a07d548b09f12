import Lox.Evaluation.Result
import Lox.Parse.Fault
import Lox.Scope
import Lox.Source

/-!
Diagnostics and their wording. Those found before a run name the line first, and the place unless it is
a stray character or an open string; a runtime error names its line behind the message.
-/
namespace Lox

def LexicalError.message : LexicalError → String
  | .unexpectedCharacter c _ => "Unexpected character '" ++ c.toString ++ "'."
  | .unterminatedString _ => "Unterminated string."

inductive Site where
  | token (t : Token)
  | finish (mark : EndMark)
deriving DecidableEq

namespace Site

def line : Site → Nat
  | token t => t.line
  | finish mark => mark.line

def text : Site → String
  | token t => "at '" ++ t.lexeme ++ "'"
  | finish _ => "at end"

end Site

def SyntaxError.site (e : SyntaxError) (finish : EndMark) : Site :=
  e.token?.elim (.finish finish) .token

inductive Diagnostic where
  | lexical (e : LexicalError)
  | grammar (site : Site) (fault : SyntaxFault)
  | scope (e : ScopeError)
  | runtime (e : RuntimeError)

namespace Diagnostic

def ofSyntaxError (finish : EndMark) (e : SyntaxError) : Diagnostic := grammar (e.site finish) e.fault

def isStatic : Diagnostic → Bool
  | lexical _ | grammar _ _ | scope _ => true
  | runtime _ => false

def line : Diagnostic → Nat
  | lexical e => e.line
  | grammar site _ => site.line
  | scope e => e.token.line
  | runtime e => e.token.line

def text (d : Diagnostic) : String :=
  let line := "[line " ++ toString d.line ++ "]"
  match d with
  | lexical e => line ++ " Error: " ++ e.message
  | grammar site fault => line ++ " Error " ++ site.text ++ ": " ++ fault.message
  | scope e => line ++ " Error " ++ (Site.token e.token).text ++ ": " ++ e.fault.message
  | runtime e => e.fault.message ++ "\n" ++ line

end Diagnostic

end Lox
