import Lox.Proofs.Printing.Form

/-!
Trees as forms. The text of a tree is that of its form.
-/
namespace Lox

def Literal.form : Literal → Form
  | .nil => .word "nil"
  | .bool b => .word (if b then "true" else "false")
  | .num x => .word (Decimal.text x)
  | .str s => .quoted s

mutual

def Expr.form : Expr → Form
  | .literal value => value.form
  | .var name => .word name.lexeme
  | .assign name value => .list [.word "=", .word name.lexeme, value.form]
  | .unary op operand => .list [.word op.lexeme, operand.form]
  | .binary left op right | .logical left op right => .list [.word op.lexeme, left.form, right.form]
  | .group inner => .list [.word "group", inner.form]
  | .call callee _ args => .list (.word "call" :: callee.form :: Expr.formAll args)
  | .get object property => .list [.word ".", object.form, .word property.lexeme]
  | .set object property value =>
    .list [.word "=", .list [.word ".", object.form, .word property.lexeme], value.form]
  | .this _ => .word "this"
  | .super _ method => .list [.word "super", .word method.lexeme]

def Expr.formAll : List Expr → List Form
  | [] => []
  | e :: rest => e.form :: Expr.formAll rest

end

def Expr.optionForm (e : Option Expr) : List Form := e.toList.map Expr.form

mutual

def Stmt.form : Stmt → Form
  | .expr e => .list [.word ";", e.form]
  | .print _ value => .list [.word "print", value.form]
  | .varDecl name init => .list (.word "var" :: .word name.lexeme :: Expr.optionForm init)
  | .block body => .list (.word "block" :: Stmt.formAll body)
  | .ifThen condition yes => .list [.word "if", condition.form, yes.form]
  | .ifElse condition yes no => .list [.word "if", condition.form, yes.form, no.form]
  | .whileLoop condition body => .list [.word "while", condition.form, body.form]
  | .ret _ value => .list (.word "return" :: Expr.optionForm value)
  | .funDecl function => function.form "fun"
  | .classDecl name superclass methods =>
    let parent := superclass.elim [] fun parent => [.word "<", .word parent.lexeme]
    .list (.word "class" :: .word name.lexeme :: parent ++ FunDecl.formAll methods)

def Stmt.formAll : List Stmt → List Form
  | [] => []
  | s :: rest => s.form :: Stmt.formAll rest

def FunDecl.form (word : String) : FunDecl → Form
  | ⟨name, params, body⟩ =>
    .list (.word word :: .word name.lexeme :: .list (params.map (.word ·.lexeme)) ::
      Stmt.formAll body)

def FunDecl.formAll : List FunDecl → List Form
  | [] => []
  | f :: rest => f.form "method" :: FunDecl.formAll rest

end

theorem toList_spaced (words : List String) (items : List Form)
    (h : words.map String.toList = items.map Form.text) :
    (spaced words).toList ++ [')'] = Form.itemsText items := by
  induction items generalizing words with
  | nil =>
    obtain rfl := List.map_eq_nil_iff.1 h
    rfl
  | cons f rest ih =>
    obtain ⟨word, words, rfl, hword, hwords⟩ := List.map_eq_cons_iff.1 h
    cases rest with
    | nil =>
      obtain rfl := List.map_eq_nil_iff.1 hwords
      rw [spaced, hword]
      rfl
    | cons g rest =>
      obtain ⟨word', words, rfl, -⟩ := List.map_eq_cons_iff.1 hwords
      have hrest := ih _ hwords
      rw [spaced, String.toList_append, String.toList_append, hword, List.append_assoc, hrest,
        List.append_assoc]
      rfl
      nofun

theorem toList_parenthesize {words : List String} {items : List Form}
    (h : words.map String.toList = items.map Form.text) :
    (parenthesize words).toList = (Form.list items).text := by
  rw [parenthesize, String.toList_append, String.toList_append, List.append_assoc, Form.text,
    ← toList_spaced words items h]
  rfl

theorem Literal.text_form (value : Literal) : value.form.text = value.parenthesized.toList := by
  cases value with
  | nil | bool _ | num _ => rfl
  | str s =>
    simp [form, parenthesized, Form.text]

mutual

theorem Expr.text_form : ∀ e : Expr, e.form.text = e.parenthesized.toList
  | .literal value => value.text_form
  | .var _ | .this _ => rfl
  | .super _ _ => (toList_parenthesize rfl).symm
  | .assign _ e | .unary _ e | .group e | .get e _ => by
    have he := e.text_form
    exact (toList_parenthesize (by simp [Form.text, he])).symm
  | .binary left _ right | .logical left _ right => by
    have hleft := left.text_form
    have hright := right.text_form
    exact (toList_parenthesize (by simp [Form.text, hleft, hright])).symm
  | .call callee _ args => by
    have hcallee := callee.text_form
    have hargs := Expr.text_formAll args
    exact (toList_parenthesize (by simp [Form.text, hcallee, hargs])).symm
  | .set object property value => by
    have hobject := object.text_form
    have hvalue := value.text_form
    have hget : (parenthesize [".", object.parenthesized, property.lexeme]).toList =
        (Form.list [.word ".", object.form, .word property.lexeme]).text :=
      toList_parenthesize (by simp [Form.text, hobject])
    exact (toList_parenthesize (by simp [Form.text, hget, hvalue])).symm

theorem Expr.text_formAll : ∀ es : List Expr,
    (Expr.formAll es).map Form.text = (Expr.allParenthesized es).map String.toList
  | [] => rfl
  | e :: rest => by
    rw [Expr.formAll, Expr.allParenthesized, List.map_cons, List.map_cons, e.text_form,
      Expr.text_formAll rest]

end

theorem Expr.text_optionForm (e : Option Expr) :
    (Expr.optionForm e).map Form.text = (Expr.optionParenthesized e).map String.toList := by
  cases e with
  | none => rfl
  | some e => simp [optionForm, optionParenthesized, e.text_form]

mutual

theorem Stmt.text_form : ∀ s : Stmt, s.form.text = s.parenthesized.toList
  | .expr e | .print _ e => by
    exact (toList_parenthesize (by simp [Form.text, e.text_form])).symm
  | .varDecl _ e? | .ret _ e? => by
    exact (toList_parenthesize (by simp [Form.text, Expr.text_optionForm])).symm
  | .block body => by
    have hbody := Stmt.text_formAll body
    exact (toList_parenthesize (by simp [Form.text, hbody])).symm
  | .ifThen condition s | .whileLoop condition s => by
    have hs := s.text_form
    exact (toList_parenthesize (by simp [Form.text, condition.text_form, hs])).symm
  | .ifElse condition yes no => by
    have hyes := yes.text_form
    have hno := no.text_form
    exact (toList_parenthesize (by simp [Form.text, condition.text_form, hyes, hno])).symm
  | .funDecl function => function.text_form "fun"
  | .classDecl _ superclass methods => by
    have hmethods := FunDecl.text_formAll methods
    cases superclass <;> exact (toList_parenthesize (by simp [Form.text, hmethods])).symm

theorem Stmt.text_formAll : ∀ ss : List Stmt,
    (Stmt.formAll ss).map Form.text = (Stmt.allParenthesized ss).map String.toList
  | [] => rfl
  | s :: rest => by
    rw [Stmt.formAll, Stmt.allParenthesized, List.map_cons, List.map_cons, s.text_form,
      Stmt.text_formAll rest]

theorem FunDecl.text_form (word : String) : ∀ f : FunDecl,
    (f.form word).text = (f.parenthesized word).toList
  | ⟨name, params, body⟩ => by
    have hbody := Stmt.text_formAll body
    have hparams : (parenthesize (params.map Token.lexeme)).toList =
        (Form.list (params.map (.word ·.lexeme))).text :=
      toList_parenthesize (by simp [Form.text, Function.comp_def])
    exact (toList_parenthesize (by simp [Form.text, hparams, hbody])).symm

theorem FunDecl.text_formAll : ∀ fs : List FunDecl,
    (FunDecl.formAll fs).map Form.text = (FunDecl.allParenthesized fs).map String.toList
  | [] => rfl
  | f :: rest => by
    rw [FunDecl.formAll, FunDecl.allParenthesized, List.map_cons, List.map_cons, f.text_form,
      FunDecl.text_formAll rest]

end

end Lox
