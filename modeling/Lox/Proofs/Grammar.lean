import Lox.Parse.Stmt

/-!
The grammar of Lox, apart from any way to parse it. Each nonterminal relates a sequence of tokens to the
tree that it stands for and to the faults that do not make it ungrammatical: assignments to what is no
target, parameters and arguments beyond the limit. A statement is open if an `else` behind it would
belong to an `if` inside it, so that every `else` belongs to the nearest open `if`.
-/
namespace Lox.Grammar

def literalKinds : List Kind := [.number, .string, .kwTrue, .kwFalse, .kwNil]

/-- The fault of an item behind `count` others, if there are too many of them. -/
def excess (count : Nat) (token? : Option Token) (fault : SyntaxFault) : List SyntaxError :=
  if maxArity ≤ count then [⟨token?, fault⟩] else []

mutual

inductive Expression : List Token → Expr → List SyntaxError → Prop
  | value {ts e n} (h : Chain .or ts e n) : Expression ts e n
  | assignment {ts us n m equals target value e} (htarget : Chain .or ts target n)
      (hequals : equals.kind = .equal) (hvalue : Expression us value m)
      (he : target.assigned? value = some e) : Expression (ts ++ equals :: us) e (n ++ m)
  /-- Only variables and properties can be assigned to; other targets stand for themselves. -/
  | noTarget {ts us n m equals target value} (htarget : Chain .or ts target n)
      (hequals : equals.kind = .equal) (hvalue : Expression us value m)
      (he : target.assigned? value = none) :
      Expression (ts ++ equals :: us) target
        (n ++ (m ++ [⟨some equals, .invalidAssignmentTarget⟩]))

/-- A chain of one level associates to the left. -/
inductive Chain : Level → List Token → Expr → List SyntaxError → Prop
  | first {level ts e n} (h : Operand level ts e n) : Chain level ts e n
  | join {level ts us n m op left right} (hleft : Chain level ts left n)
      (hop : op.kind ∈ level.operators) (hright : Operand level us right m) :
      Chain level (ts ++ op :: us) (level.join left op right) (n ++ m)

inductive Operand : Level → List Token → Expr → List SyntaxError → Prop
  | chain {level next ts e n} (hnext : level.next? = some next) (h : Chain next ts e n) :
      Operand level ts e n
  | unary {level ts e n} (hnext : level.next? = none) (h : Unary ts e n) : Operand level ts e n

inductive Unary : List Token → Expr → List SyntaxError → Prop
  | operator {op ts e n} (hop : op.kind = .bang ∨ op.kind = .minus) (h : Unary ts e n) :
      Unary (op :: ts) (.unary op e) n
  | call {ts e n} (h : Call ts e n) : Unary ts e n

inductive Call : List Token → Expr → List SyntaxError → Prop
  | primary {ts e n} (h : Primary ts e n) : Call ts e n
  | call {ts us n m callee args start paren} (hcallee : Call ts callee n)
      (hstart : start.kind = .leftParen) (hargs : Arguments us args m)
      (hparen : paren.kind = .rightParen) :
      Call (ts ++ start :: (us ++ [paren])) (.call callee paren args) (n ++ m)
  | get {ts n object dot property} (hobject : Call ts object n) (hdot : dot.kind = .dot)
      (hproperty : property.kind = .identifier) :
      Call (ts ++ [dot, property]) (.get object property) n

inductive Arguments : List Token → List Expr → List SyntaxError → Prop
  | none : Arguments [] [] []
  | some {ts args n} (h : ArgumentList 0 ts args n) : Arguments ts args n

inductive ArgumentList : Nat → List Token → List Expr → List SyntaxError → Prop
  | last {count ts e n} (h : Expression ts e n) :
      ArgumentList count ts [e] (excess count ts.head? .tooManyArguments ++ n)
  | more {count ts us e es n m comma} (h : Expression ts e n) (hcomma : comma.kind = .comma)
      (hrest : ArgumentList (count + 1) us es m) :
      ArgumentList count (ts ++ comma :: us) (e :: es)
        (excess count ts.head? .tooManyArguments ++ (n ++ m))

inductive Primary : List Token → Expr → List SyntaxError → Prop
  | literal {t} (h : t.kind ∈ literalKinds) : Primary [t] (.literal t.literal) []
  | var {t} (h : t.kind = .identifier) : Primary [t] (.var t) []
  | this {t} (h : t.kind = .kwThis) : Primary [t] (.this t) []
  | super {t dot method} (h : t.kind = .kwSuper) (hdot : dot.kind = .dot)
      (hmethod : method.kind = .identifier) : Primary [t, dot, method] (.super t method) []
  | group {start finish ts e n} (hstart : start.kind = .leftParen) (h : Expression ts e n)
      (hfinish : finish.kind = .rightParen) : Primary (start :: (ts ++ [finish])) (.group e) n

end

inductive OptionalExpression : List Token → Option Expr → List SyntaxError → Prop
  | none : OptionalExpression [] none []
  | some {ts e n} (h : Expression ts e n) : OptionalExpression ts (some e) n

inductive ParameterList : Nat → List Token → List Token → List SyntaxError → Prop
  | last {count t} (h : t.kind = .identifier) :
      ParameterList count [t] [t] (excess count t .tooManyParameters)
  | more {count t comma ts params n} (h : t.kind = .identifier) (hcomma : comma.kind = .comma)
      (hrest : ParameterList (count + 1) ts params n) :
      ParameterList count (t :: comma :: ts) (t :: params) (excess count t .tooManyParameters ++ n)

inductive Parameters : List Token → List Token → List SyntaxError → Prop
  | none : Parameters [] [] []
  | some {ts params n} (h : ParameterList 0 ts params n) : Parameters ts params n

inductive VarDecl : List Token → Stmt → List SyntaxError → Prop
  | bare {name finish} (hname : name.kind = .identifier) (hfinish : finish.kind = .semicolon) :
      VarDecl [name, finish] (.varDecl name none) []
  | initialized {name equals finish ts e n} (hname : name.kind = .identifier)
      (hequals : equals.kind = .equal) (h : Expression ts e n) (hfinish : finish.kind = .semicolon) :
      VarDecl (name :: equals :: (ts ++ [finish])) (.varDecl name (some e)) n

inductive ExpressionStatement : List Token → Stmt → List SyntaxError → Prop
  | mk {ts e n finish} (h : Expression ts e n) (hfinish : finish.kind = .semicolon) :
      ExpressionStatement (ts ++ [finish]) (.expr e) n

inductive ForInitializer : List Token → Option Stmt → List SyntaxError → Prop
  | none {finish} (hfinish : finish.kind = .semicolon) : ForInitializer [finish] none []
  | var {keyword ts s n} (hkeyword : keyword.kind = .kwVar) (h : VarDecl ts s n) :
      ForInitializer (keyword :: ts) (some s) n
  | expr {ts s n} (h : ExpressionStatement ts s n) : ForInitializer ts (some s) n

inductive Superclass : List Token → Option Token → Prop
  | none : Superclass [] none
  | some {less parent} (hless : less.kind = .less) (hparent : parent.kind = .identifier) :
      Superclass [less, parent] (some parent)

mutual

inductive Declarations : List Token → List Stmt → List SyntaxError → Prop
  | nil : Declarations [] [] []
  | cons {ts us s rest n m} (h : Declaration ts s n) (hrest : Declarations us rest m) :
      Declarations (ts ++ us) (s :: rest) (n ++ m)

inductive Declaration : List Token → Stmt → List SyntaxError → Prop
  | cls {keyword name start finish parents ts superclass methods n}
      (hkeyword : keyword.kind = .kwClass) (hname : name.kind = .identifier)
      (hparents : Superclass parents superclass) (hstart : start.kind = .leftBrace)
      (h : Methods ts methods n) (hfinish : finish.kind = .rightBrace) :
      Declaration (keyword :: name :: (parents ++ start :: (ts ++ [finish])))
        (.classDecl name superclass methods) n
  | function {keyword ts f n} (hkeyword : keyword.kind = .kwFun) (h : Function ts f n) :
      Declaration (keyword :: ts) (.funDecl f) n
  | var {keyword ts s n} (hkeyword : keyword.kind = .kwVar) (h : VarDecl ts s n) :
      Declaration (keyword :: ts) s n
  | statement {isOpen ts s n} (h : Statement isOpen ts s n) : Declaration ts s n

inductive Methods : List Token → List FunDecl → List SyntaxError → Prop
  | nil : Methods [] [] []
  | cons {ts us f rest n m} (h : Function ts f n) (hrest : Methods us rest m) :
      Methods (ts ++ us) (f :: rest) (n ++ m)

inductive Function : List Token → FunDecl → List SyntaxError → Prop
  | mk {name start finish ts us params body n m} (hname : name.kind = .identifier)
      (hstart : start.kind = .leftParen) (hparams : Parameters ts params n)
      (hfinish : finish.kind = .rightParen) (hbody : Block us body m) :
      Function (name :: start :: (ts ++ finish :: us)) ⟨name, params, body⟩ (n ++ m)

inductive Block : List Token → List Stmt → List SyntaxError → Prop
  | mk {start finish ts body n} (hstart : start.kind = .leftBrace) (h : Declarations ts body n)
      (hfinish : finish.kind = .rightBrace) : Block (start :: (ts ++ [finish])) body n

inductive Statement : Bool → List Token → Stmt → List SyntaxError → Prop
  | ifThen {keyword start finish ts us c yes n m isOpen} (hkeyword : keyword.kind = .kwIf)
      (hstart : start.kind = .leftParen) (hc : Expression ts c n)
      (hfinish : finish.kind = .rightParen) (hyes : Statement isOpen us yes m) :
      Statement true (keyword :: start :: (ts ++ finish :: us)) (.ifThen c yes) (n ++ m)
  | ifElse {keyword start finish els ts us vs c yes no n m k isOpen}
      (hkeyword : keyword.kind = .kwIf) (hstart : start.kind = .leftParen) (hc : Expression ts c n)
      (hfinish : finish.kind = .rightParen) (hyes : Statement false us yes m)
      (hels : els.kind = .kwElse) (hno : Statement isOpen vs no k) :
      Statement isOpen (keyword :: start :: (ts ++ finish :: (us ++ els :: vs)))
        (.ifElse c yes no) (n ++ (m ++ k))
  | print {keyword finish ts e n} (hkeyword : keyword.kind = .kwPrint) (h : Expression ts e n)
      (hfinish : finish.kind = .semicolon) :
      Statement false (keyword :: (ts ++ [finish])) (.print keyword e) n
  | ret {keyword finish ts e n} (hkeyword : keyword.kind = .kwReturn)
      (h : OptionalExpression ts e n) (hfinish : finish.kind = .semicolon) :
      Statement false (keyword :: (ts ++ [finish])) (.ret keyword e) n
  | whileLoop {keyword start finish ts us c body n m isOpen} (hkeyword : keyword.kind = .kwWhile)
      (hstart : start.kind = .leftParen) (hc : Expression ts c n)
      (hfinish : finish.kind = .rightParen) (hbody : Statement isOpen us body m) :
      Statement isOpen (keyword :: start :: (ts ++ finish :: us)) (.whileLoop c body) (n ++ m)
  | forLoop {keyword start middle finish ts us vs ws init c inc body n m k l isOpen}
      (hkeyword : keyword.kind = .kwFor) (hstart : start.kind = .leftParen)
      (hinit : ForInitializer ts init n) (hc : OptionalExpression us c m)
      (hmiddle : middle.kind = .semicolon) (hinc : OptionalExpression vs inc k)
      (hfinish : finish.kind = .rightParen) (hbody : Statement isOpen ws body l) :
      Statement isOpen (keyword :: start :: (ts ++ (us ++ middle :: (vs ++ finish :: ws))))
        (.forLoop init c inc body) (n ++ (m ++ (k ++ l)))
  | block {ts body n} (h : Block ts body n) : Statement false ts (.block body) n
  | expr {ts s n} (h : ExpressionStatement ts s n) : Statement false ts s n

end

/-- A program is a sequence of declarations up to the end of its tokens. -/
abbrev Program : List Token → List Stmt → List SyntaxError → Prop := Declarations

def startsPrimary : Kind → Bool
  | .leftParen | .identifier | .kwThis | .kwSuper
  | .number | .string | .kwTrue | .kwFalse | .kwNil => true
  | _ => false

def startsExpression : Kind → Bool
  | .bang | .minus => true
  | kind => startsPrimary kind

def startsBareStatement : Kind → Bool
  | .kwIf | .kwPrint | .kwReturn | .kwWhile | .kwFor | .leftBrace => true
  | kind => startsExpression kind

def startsDeclaration : Kind → Bool
  | .kwClass | .kwFun | .kwVar => true
  | kind => startsBareStatement kind

def Starts (p : Kind → Bool) (ts : List Token) : Prop :=
  ∃ t rest, ts = t :: rest ∧ p t.kind = true

theorem Starts.append {p : Kind → Bool} {ts : List Token} (h : Starts p ts) (us : List Token) :
    Starts p (ts ++ us) := by
  obtain ⟨t, rest, rfl, ht⟩ := h
  exact ⟨t, rest ++ us, rfl, ht⟩

theorem Starts.head?_append {p : Kind → Bool} {ts : List Token} (h : Starts p ts)
    (us : List Token) : (ts ++ us).head? = ts.head? := by
  obtain ⟨t, rest, rfl, -⟩ := h
  rfl

theorem Starts.imp {p q : Kind → Bool} {ts : List Token} (h : Starts p ts)
    (hpq : ∀ kind, p kind = true → q kind = true) : Starts q ts := by
  obtain ⟨t, rest, rfl, ht⟩ := h
  exact ⟨t, rest, rfl, hpq _ ht⟩

theorem startsPrimary_of_literal {kind : Kind} (h : kind ∈ literalKinds) :
    startsPrimary kind = true := by
  simp only [literalKinds, List.mem_cons, List.not_mem_nil, or_false] at h
  rcases h with rfl | rfl | rfl | rfl | rfl <;> rfl

theorem startsExpression_of_primary {kind : Kind} (h : startsPrimary kind = true) :
    startsExpression kind = true := by
  cases kind <;> first | rfl | exact h

theorem Primary.starts {ts e n} : Primary ts e n → Starts startsPrimary ts
  | .literal h => ⟨_, _, rfl, startsPrimary_of_literal h⟩
  | .var h | .this h | .super h _ _ | .group h _ _ => ⟨_, _, rfl, by rw [h]; rfl⟩

theorem Call.starts {ts e n} : Call ts e n → Starts startsPrimary ts
  | .primary h => h.starts
  | .call h _ _ _ => h.starts.append _
  | .get h _ _ => h.starts.append _

theorem Unary.starts {ts e n} : Unary ts e n → Starts startsExpression ts
  | .operator hop _ => ⟨_, _, rfl, by rcases hop with h | h <;> rw [h] <;> rfl⟩
  | .call h => h.starts.imp fun _ => startsExpression_of_primary

mutual

theorem Chain.starts {level ts e n} : Chain level ts e n → Starts startsExpression ts
  | .first h => h.starts
  | .join h _ _ => h.starts.append _

theorem Operand.starts {level ts e n} : Operand level ts e n → Starts startsExpression ts
  | .chain _ h => h.starts
  | .unary _ h => h.starts

end

theorem Expression.starts {ts e n} : Expression ts e n → Starts startsExpression ts
  | .value h => h.starts
  | .assignment h _ _ _ => h.starts.append _
  | .noTarget h _ _ _ => h.starts.append _

theorem ArgumentList.starts {count ts args n} (h : ArgumentList count ts args n) :
    Starts startsExpression ts := by
  cases h with
  | last h => exact h.starts
  | more h _ _ => exact h.starts.append _

theorem startsBareStatement_of_expression {kind : Kind} (h : startsExpression kind = true) :
    startsBareStatement kind = true := by
  cases kind <;> first | rfl | exact h

theorem startsDeclaration_of_bareStatement {kind : Kind} (h : startsBareStatement kind = true) :
    startsDeclaration kind = true := by
  cases kind <;> first | rfl | exact h

theorem ExpressionStatement.starts {ts s n} (h : ExpressionStatement ts s n) :
    Starts startsExpression ts := by
  cases h with
  | mk h _ => exact h.starts.append _

theorem Block.starts {ts body n} (h : Block ts body n) : Starts (· = .leftBrace) ts := by
  obtain ⟨h, _, _⟩ := h
  exact ⟨_, _, rfl, by simp [h]⟩

theorem Statement.starts {isOpen ts s n} (h : Statement isOpen ts s n) :
    Starts startsBareStatement ts := by
  cases h with
  | ifThen h _ _ _ _ | ifElse h _ _ _ _ _ _ | print h _ _ | ret h _ _ | whileLoop h _ _ _ _
  | forLoop h _ _ _ _ _ _ _ => exact ⟨_, _, rfl, by rw [h]; rfl⟩
  | block h =>
    apply h.starts.imp
    intro kind hkind
    rw [of_decide_eq_true hkind]
    rfl
  | expr h => exact h.starts.imp fun _ => startsBareStatement_of_expression

theorem Declaration.starts {ts s n} (h : Declaration ts s n) : Starts startsDeclaration ts := by
  cases h with
  | cls h _ _ _ _ _ | function h _ | var h _ => exact ⟨_, _, rfl, by rw [h]; rfl⟩
  | statement h => exact h.starts.imp fun _ => startsDeclaration_of_bareStatement

theorem Function.starts {ts f n} (h : Function ts f n) : Starts (· = .identifier) ts := by
  obtain ⟨h, _, _, _, _⟩ := h
  exact ⟨_, _, rfl, by simp [h]⟩

end Lox.Grammar
