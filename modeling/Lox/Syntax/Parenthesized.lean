import Lox.Number.Decimal
import Lox.Syntax

/-!
Trees in prefix form, every inner node in parentheses: `(print (+ 1 (group (* 2 3))))`. Literal
strings stand in quotes as they are, without escapes.
-/
namespace Lox

def spaced : List String → String
  | [] => ""
  | [word] => word
  | word :: words => word ++ " " ++ spaced words

def parenthesize (words : List String) : String := "(" ++ spaced words ++ ")"

def Literal.parenthesized : Literal → String
  | .nil => "nil"
  | .bool b => if b then "true" else "false"
  | .num x => Decimal.text x
  | .str s => "\"" ++ s ++ "\""

mutual

def Expr.parenthesized : Expr → String
  | .literal value => value.parenthesized
  | .var name => name.lexeme
  | .assign name value => parenthesize ["=", name.lexeme, value.parenthesized]
  | .unary op operand => parenthesize [op.lexeme, operand.parenthesized]
  | .binary left op right => parenthesize [op.lexeme, left.parenthesized, right.parenthesized]
  | .logical left op right => parenthesize [op.lexeme, left.parenthesized, right.parenthesized]
  | .group inner => parenthesize ["group", inner.parenthesized]
  | .call callee _ args => parenthesize ("call" :: callee.parenthesized :: Expr.allParenthesized args)
  | .get object property => parenthesize [".", object.parenthesized, property.lexeme]
  | .set object property value =>
    parenthesize
      ["=", parenthesize [".", object.parenthesized, property.lexeme], value.parenthesized]
  | .this _ => "this"
  | .super _ method => parenthesize ["super", method.lexeme]

def Expr.allParenthesized : List Expr → List String
  | [] => []
  | e :: rest => e.parenthesized :: Expr.allParenthesized rest

end

def Expr.optionParenthesized (e : Option Expr) : List String :=
  e.toList.map Expr.parenthesized

mutual

def Stmt.parenthesized : Stmt → String
  | .expr e => parenthesize [";", e.parenthesized]
  | .print _ value => parenthesize ["print", value.parenthesized]
  | .varDecl name init => parenthesize ("var" :: name.lexeme :: Expr.optionParenthesized init)
  | .block body => parenthesize ("block" :: Stmt.allParenthesized body)
  | .ifThen condition yes => parenthesize ["if", condition.parenthesized, yes.parenthesized]
  | .ifElse condition yes no =>
    parenthesize ["if", condition.parenthesized, yes.parenthesized, no.parenthesized]
  | .whileLoop condition body => parenthesize ["while", condition.parenthesized, body.parenthesized]
  | .ret _ value => parenthesize ("return" :: Expr.optionParenthesized value)
  | .funDecl function => function.parenthesized "fun"
  | .classDecl name superclass methods =>
    let parent := superclass.elim [] fun parent => ["<", parent.lexeme]
    parenthesize ("class" :: name.lexeme :: parent ++ FunDecl.allParenthesized methods)

def Stmt.allParenthesized : List Stmt → List String
  | [] => []
  | s :: rest => s.parenthesized :: Stmt.allParenthesized rest

/-- A function behind the word that introduces it. -/
def FunDecl.parenthesized (word : String) : FunDecl → String
  | ⟨name, params, body⟩ =>
    parenthesize (word :: name.lexeme :: parenthesize (params.map Token.lexeme) ::
      Stmt.allParenthesized body)

def FunDecl.allParenthesized : List FunDecl → List String
  | [] => []
  | m :: rest => m.parenthesized "method" :: FunDecl.allParenthesized rest

end

end Lox
