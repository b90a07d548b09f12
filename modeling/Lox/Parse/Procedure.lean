import Lox.Parse.Fault

/-!
Parsing procedures. A procedure reads tokens from the front and returns those it leaves. It can note
faults and go on, or fail; `recover` turns a failure into a noted fault and skips to the next
statement boundary.
-/
namespace Lox.Parse

inductive Outcome (α : Type) where
  | ok (value : α) (noted : List SyntaxError) (rest : List Token)
  | fail (error : SyntaxError) (noted : List SyntaxError) (rest : List Token)
  /-- The bound on the depth of the recursion was too small. -/
  | exhausted

@[inline] def Outcome.after (noted : List SyntaxError) : Outcome α → Outcome α
  | .ok value later rest => .ok value (noted ++ later) rest
  | .fail error later rest => .fail error (noted ++ later) rest
  | .exhausted => .exhausted

def Procedure (α : Type) := List Token → Outcome α

namespace Procedure

@[inline] def pure (value : α) : Procedure α := fun tokens => .ok value [] tokens

@[inline] def bind (p : Procedure α) (next : α → Procedure β) : Procedure β := fun tokens =>
  match p tokens with
  | .ok value noted rest => (next value rest).after noted
  | .fail error noted rest => .fail error noted rest
  | .exhausted => .exhausted

instance : Monad Procedure where
  pure := Procedure.pure
  bind := Procedure.bind

end Procedure

def exhausted : Procedure α := fun _ => .exhausted

def peek? : Procedure (Option Token) := fun tokens => .ok tokens.head? [] tokens

def skip : Procedure Unit := fun tokens => .ok () [] tokens.tail

def note (fault : SyntaxFault) : Procedure Unit := fun tokens =>
  .ok () [⟨tokens.head?, fault⟩] tokens

def noteAt (token : Token) (fault : SyntaxFault) : Procedure Unit := fun tokens =>
  .ok () [⟨some token, fault⟩] tokens

def fail (fault : SyntaxFault) : Procedure α := fun tokens => .fail ⟨tokens.head?, fault⟩ [] tokens

def acceptIf (p : Kind → Bool) : Procedure (Option Token) := fun tokens =>
  match tokens with
  | t :: rest => if p t.kind then .ok (some t) [] rest else .ok none [] tokens
  | [] => .ok none [] []

def accept (kind : Kind) : Procedure (Option Token) := acceptIf (· = kind)

def require (what : Expectation) : Procedure Token := fun tokens =>
  match tokens with
  | t :: rest =>
    if t.kind = what.kind then .ok t [] rest else .fail ⟨some t, .expected what⟩ [] tokens
  | [] => .fail ⟨none, .expected what⟩ [] []

/-- The kinds that only the start of a declaration or statement has. -/
def startsStatement : Kind → Bool
  | .kwClass | .kwFun | .kwVar | .kwFor | .kwIf | .kwWhile | .kwPrint | .kwReturn => true
  | _ => false

/-- Drops the token at which a failure arose, and then all up to a statement boundary: a semicolon
just dropped, a token that starts a statement, or the end. -/
def synchronize : List Token → List Token
  | [] => []
  | t :: rest =>
    if t.kind = .semicolon then rest
    else if rest.head?.any (startsStatement ·.kind) then rest
    else synchronize rest

/-- Notes a failure and goes on at the next statement boundary, without a result. -/
def recover (p : Procedure α) : Procedure (Option α) := fun tokens =>
  match p tokens with
  | .ok value noted rest => .ok (some value) noted rest
  | .fail error noted rest => .ok none (noted ++ [error]) (synchronize rest)
  | .exhausted => .exhausted

end Lox.Parse
