/-!
Tokens of Lox. A token knows its text, the line on which it ends and its index, which no other token
of the session shares; side tables about the syntax are keyed by it.
-/
namespace Lox

inductive Kind where
  | leftParen | rightParen | leftBrace | rightBrace
  | comma | dot | minus | plus | semicolon | slash | star
  | bang | bangEqual | equal | equalEqual | greater | greaterEqual | less | lessEqual
  | identifier | string | number
  | kwAnd | kwClass | kwElse | kwFalse | kwFor | kwFun | kwIf | kwNil | kwOr | kwPrint
  | kwReturn | kwSuper | kwThis | kwTrue | kwVar | kwWhile
deriving DecidableEq, Repr, Inhabited

def keywords : List (String × Kind) :=
  [("and", .kwAnd), ("class", .kwClass), ("else", .kwElse), ("false", .kwFalse), ("for", .kwFor),
    ("fun", .kwFun), ("if", .kwIf), ("nil", .kwNil), ("or", .kwOr), ("print", .kwPrint),
    ("return", .kwReturn), ("super", .kwSuper), ("this", .kwThis), ("true", .kwTrue),
    ("var", .kwVar), ("while", .kwWhile)]

/-- A word is a reserved one or an identifier. -/
def Kind.ofWord (word : String) : Kind := (keywords.lookup word).getD .identifier

inductive Literal where
  | nil
  | bool (b : Bool)
  | num (x : Float)
  | str (s : String)
deriving DecidableEq, Inhabited

structure Token where
  kind : Kind
  lexeme : String
  line : Nat
  index : Nat
  value : Literal
deriving DecidableEq, Inhabited

/-- The constant that a token writes down. A reserved word stands for one and the same constant. -/
def Token.literal (t : Token) : Literal :=
  match t.kind with
  | .kwTrue => .bool true
  | .kwFalse => .bool false
  | .kwNil => .nil
  | _ => t.value

/-- The end of a source takes a line and an index as a token does. -/
structure EndMark where
  line : Nat
  index : Nat
deriving DecidableEq, Repr, Inhabited

end Lox
