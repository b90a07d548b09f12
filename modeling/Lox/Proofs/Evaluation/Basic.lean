import Lox.Evaluation

/-!
Evaluations in sequence. What runs behind an evaluation that ends with a value starts from that value and
the world that it leaves; behind one that does not, nothing runs.
-/
namespace Lox

variable {α β : Type}

theorem rel_cases {R : α → β → Prop} {a : Option α} {b : Option β} (h : Option.Rel R a b) :
    (a = none ∧ b = none) ∨ ∃ x y, a = some x ∧ b = some y ∧ R x y := by
  cases h with
  | none => exact .inl ⟨rfl, rfl⟩
  | some h => exact .inr ⟨_, _, rfl, rfl, h⟩

theorem rel_imp {R S : α → β → Prop} {a : Option α} {b : Option β} (h : Option.Rel R a b)
    (hRS : ∀ x y, R x y → S x y) : Option.Rel S a b := by
  cases h with
  | none => exact .none
  | some h => exact .some (hRS _ _ h)

namespace Result

def andThen (result : Result α) (next : α → Evaluation β) : Result β :=
  match result with
  | .ok value w => next value w
  | .error e w => .error e w
  | .exhausted => .exhausted

def world? : Result α → Option World
  | .ok _ w | .error _ w => some w
  | .exhausted => none

end Result

namespace Evaluation

theorem bind_run (m : Evaluation α) (next : α → Evaluation β) (w : World) :
    (m >>= next) w = (m w).andThen next := rfl

theorem bind_assoc {γ : Type} (m : Evaluation α) (next : α → Evaluation β) (last : β → Evaluation γ) :
    m >>= next >>= last = m >>= fun value => next value >>= last := by
  funext w
  simp only [bind_run]
  cases m w <;> rfl

end Evaluation

/-- A value that leads to no environment. -/
def Value.IsPlain : Value → Prop
  | .nil | .bool _ | .num _ | .str _ => True
  | .callable _ | .object _ _ => False

theorem isPlain_ofLiteral (value : Literal) : (Value.ofLiteral value).IsPlain := by
  cases value <;> trivial

def RuntimeFault.OfOperands : RuntimeFault → Prop
  | .operandsMustBeNumbers | .operandsMustBeNumbersOrStrings | .operandMustBeNumber
  | .invalidBinaryOperator | .invalidUnaryOperator => True
  | _ => False

/-- An operator gives a plain value or finds a fault in its operands. -/
def Operated : Except RuntimeFault Value → Prop
  | .ok value => value.IsPlain
  | .error fault => fault.OfOperands

theorem unaryOperation_operated (op : Kind) (operand : Value) :
    Operated (unaryOperation op operand) := by
  unfold unaryOperation
  split <;> trivial

theorem numericOperation_operated (left right : Value) {f : Float → Float → Value}
    (hf : ∀ x y, (f x y).IsPlain) : Operated (numericOperation left right f) := by
  unfold numericOperation
  split
  · exact hf _ _
  · trivial

theorem binaryOperation_operated (op : Kind) (left right : Value) :
    Operated (binaryOperation op left right) := by
  unfold binaryOperation
  split
  case h_1 => split <;> trivial
  case h_9 | h_10 | h_11 => trivial
  all_goals exact numericOperation_operated left right fun _ _ => trivial

def methodsEnvironment (ctx : Context) : Option Class → Evaluation Environment
  | none => pure ctx.env
  | some parent => makeFrame (.ofList [("super", .callable (.cls parent))]) ctx.env

theorem declareClass_eq (ctx : Context) (name : Token) (superclass : Option Class)
    (methods : List FunDecl) :
    declareClass ctx name superclass methods = do
      defineVariable ctx.env name.lexeme .nil
      let env ← methodsEnvironment ctx superclass
      let id ← freshId
      assignDeclared ctx.env name
        (.callable (.cls ⟨id, name.lexeme, superclass, methodTable env methods⟩))
      return .normal := by
  cases superclass <;> rfl

end Lox
