import Lox.Token

/-!
What can be wrong with a sequence of tokens. Most faults are a missing token, so an `Expectation`
says both which kind it asks for and how a diagnostic words it.
-/
namespace Lox

inductive Role where
  | function
  | method
deriving DecidableEq, Repr

def Role.word : Role → String
  | .function => "function"
  | .method => "method"

/-- A place in the grammar at which only one kind of token may stand. -/
inductive Expectation where
  | className | superclassName | classBody | classEnd
  | functionName (role : Role) | parametersStart (role : Role)
  | parameterName | parametersEnd | functionBody (role : Role)
  | variableName | variableEnd
  | blockEnd | expressionEnd | printEnd | returnEnd
  | ifStart | ifEnd | whileStart | whileEnd | forStart | forConditionEnd | forEnd
  | propertyName | argumentsEnd | superDot | superMethod | groupEnd
deriving DecidableEq, Repr

namespace Expectation

def kind : Expectation → Kind
  | className | superclassName | functionName _ | parameterName | variableName | propertyName
  | superMethod => .identifier
  | classBody | functionBody _ => .leftBrace
  | classEnd | blockEnd => .rightBrace
  | parametersStart _ | ifStart | whileStart | forStart => .leftParen
  | parametersEnd | ifEnd | whileEnd | forEnd | argumentsEnd | groupEnd => .rightParen
  | variableEnd | expressionEnd | printEnd | returnEnd | forConditionEnd => .semicolon
  | superDot => .dot

def message : Expectation → String
  | className => "Expect class name."
  | superclassName => "Expect superclass name."
  | classBody => "Expect '\x7b' before class body."
  | classEnd => "Expect '\x7d' after class body."
  | functionName role => "Expect " ++ role.word ++ " name."
  | parametersStart role => "Expect '(' after " ++ role.word ++ " name."
  | parameterName => "Expect parameter name."
  | parametersEnd => "Expect ')' after parameters."
  | functionBody role => "Expect '\x7b' before " ++ role.word ++ " body."
  | variableName => "Expect variable name."
  | variableEnd => "Expect ';' after variable declaration."
  | blockEnd => "Expect '\x7d' after block."
  | expressionEnd => "Expect ';' after expression."
  | printEnd => "Expect ';' after value."
  | returnEnd => "Expect ';' after return value."
  | ifStart => "Expect '(' after 'if'."
  | ifEnd => "Expect ')' after if condition."
  | whileStart => "Expect '(' after 'while'."
  | whileEnd => "Expect ')' after condition."
  | forStart => "Expect '(' after 'for'."
  | forConditionEnd => "Expect ';' after loop condition."
  | forEnd => "Expect ')' after for clauses."
  | propertyName => "Expect property name after '.'."
  | argumentsEnd => "Expect ')' after arguments."
  | superDot => "Expect '.' after 'super'."
  | superMethod => "Expect superclass method name."
  | groupEnd => "Expect ')' after expression."

end Expectation

inductive SyntaxFault where
  | expected (what : Expectation)
  | expectedExpression
  | invalidAssignmentTarget
  | tooManyParameters
  | tooManyArguments
deriving DecidableEq, Repr

/-- The most parameters that a function may have, and arguments that a call may pass. -/
def maxArity : Nat := 255

def SyntaxFault.message : SyntaxFault → String
  | expected what => what.message
  | expectedExpression => "Expect expression."
  | invalidAssignmentTarget => "Invalid assignment target."
  | tooManyParameters => "Can't have more than 255 parameters."
  | tooManyArguments => "Can't have more than 255 arguments."

/-- A fault at a token, or at the end of the tokens. -/
structure SyntaxError where
  token? : Option Token
  fault : SyntaxFault
deriving DecidableEq

end Lox
