import Lox.Proofs.Printing.Legible

/-!
Printed trees are uniquely readable. The form of a legible tree can be read back: the head of a list tells
by its kind what stands in the list. So parsed sources with the same texts have the same trees, apart from
the places of their tokens.
-/
namespace Lox

def Form.token : Form → Token
  | .word text => .ofText text
  | _ => .ofText ""

def Expr.ofWord (word : Token) : Expr :=
  match word.kind with
  | .identifier => .var word
  | .kwThis => .this word
  | _ => .literal word.value

/-- The expression of a list, from its head, what stands behind that and how it reads. -/
def Expr.ofList (head : Token) (forms : List Form) (operands : List Expr) : Expr :=
  match head.kind, forms, operands with
  | .equal, _, [target, value] => (target.assigned? value).getD value
  | .dot, [_, property], object :: _ => .get object property.token
  | .kwSuper, [method], _ => .super head method.token
  | .identifier, _, callee :: args =>
    if head.lexeme = "group" then .group callee else .call callee (.ofText ")") args
  | .kwOr, _, [left, right] | .kwAnd, _, [left, right] => .logical left head right
  | _, _, [operand] => .unary head operand
  | _, _, [left, right] => .binary left head right
  | _, _, _ => .literal .nil

mutual

/-- The expression with a form, if there is one. -/
def Form.expr : Form → Expr
  | .word text => .ofWord (.ofText text)
  | .quoted text => .literal (.str text)
  | .list (.word head :: forms) => .ofList (.ofText head) forms (Form.exprs forms)
  | .list _ => .literal .nil

def Form.exprs : List Form → List Expr
  | [] => []
  | f :: rest => f.expr :: Form.exprs rest

end

theorem Token.ofText_number {bits : Nat} (h : bits < Double.infinityBits) :
    (ofText (Decimal.text (Float.ofBits bits.toUInt64))).kind = .number ∧
      (ofText (Decimal.text (Float.ofBits bits.toUInt64))).value = .num (Float.ofBits bits.toUInt64) := by
  obtain ⟨c, cs, hstart, hdigit⟩ := Decimal.numeral_starts (Decimal.shortest bits)
  have hread := Decimal.read_text h
  have hkind : Lexical.kindOf (Decimal.text (Float.ofBits bits.toUInt64)).toList = .number := by
    rw [Decimal.text_ofBits h, String.toList_ofList]
    exact Lexical.kindOf_number hstart hdigit
  refine ⟨hkind, ?_⟩
  rw [ofText, hkind, Source.valueOf, hread]

theorem Literal.expr_form {value : Literal} (h : value.Legible) : value.form.expr = .literal value := by
  cases value with
  | nil => rfl
  | bool b => cases b <;> rfl
  | num x =>
    obtain ⟨bits, hbits, rfl⟩ := h
    obtain ⟨hkind, hvalue⟩ := Token.ofText_number hbits
    rw [form, Form.expr, Expr.ofWord, hkind, hvalue]
  | str s => rfl

theorem Token.Names.ofText_eq {name : Token} (h : name.Names) :
    Token.ofText name.lexeme = Relabelling.erase name := h.erase_eq.symm

theorem Token.Names.expr_word {name : Token} (h : name.Names) :
    (Form.word name.lexeme).expr = .var (Relabelling.erase name) := by
  rw [Form.expr, h.ofText_eq, Expr.ofWord, Relabelling.apply_kind, h.kind_eq]

theorem Expr.ofList_unary {op : Token} (forms : List Form) (operand : Expr)
    (h : op.kind.isUnaryOperator = true) : Expr.ofList op forms [operand] = .unary op operand := by
  cases hkind : op.kind <;> rw [hkind] at h
  case bang | minus => simp [Expr.ofList, hkind]
  all_goals contradiction

theorem Expr.ofList_binary {op : Token} (forms : List Form) (left right : Expr)
    (h : op.kind.isBinaryOperator = true) :
    Expr.ofList op forms [left, right] = .binary left op right := by
  unfold Expr.ofList
  generalize op.kind = kind at h
  cases kind <;> first | contradiction | rfl

theorem Expr.ofList_logical {op : Token} (forms : List Form) (left right : Expr)
    (h : op.kind ∈ [.kwOr, .kwAnd]) :
    Expr.ofList op forms [left, right] = .logical left op right := by
  unfold Expr.ofList
  simp only [List.mem_cons, List.not_mem_nil, or_false] at h
  rcases h with h | h <;> rw [h]

mutual

theorem Expr.expr_form : ∀ {e : Expr}, e.Legible → e.form.expr = e.relabel .erase
  | .literal _, h => Literal.expr_form h
  | .var _, h => h.expr_word
  | .assign _ _, ⟨hname, he⟩ => by
    change ((Form.expr _).assigned? (Form.expr _)).getD _ = _
    rw [hname.expr_word, Expr.expr_form he]
    rfl
  | .unary _ _, ⟨hop, he⟩ => by
    rw [Expr.form, Form.expr, ← hop.1.erase_eq, Form.exprs, Form.exprs, Expr.expr_form he]
    exact Expr.ofList_unary _ _ hop.2
  | .binary _ _ _, ⟨hop, hleft, hright⟩ => by
    rw [Expr.form, Form.expr, ← hop.1.erase_eq, Form.exprs, Form.exprs, Form.exprs,
      Expr.expr_form hleft, Expr.expr_form hright]
    exact Expr.ofList_binary _ _ _ hop.2
  | .logical _ _ _, ⟨hop, hleft, hright⟩ => by
    rw [Expr.form, Form.expr, ← hop.1.erase_eq, Form.exprs, Form.exprs, Form.exprs,
      Expr.expr_form hleft, Expr.expr_form hright]
    exact Expr.ofList_logical _ _ _ hop.2
  | .group inner, h => by
    have hinner : inner.Legible := h
    change Expr.group (Form.expr _) = _
    rw [Expr.expr_form hinner, Expr.relabel]
  | .call _ _ _, ⟨hparen, hcallee, hargs⟩ => by
    change Expr.call (Form.expr _) (.ofText ")") (Form.exprs _) = _
    rw [Expr.expr_form hcallee, Expr.exprs_formAll hargs, ← hparen, Expr.relabel]
  | .get _ _, ⟨hproperty, hobject⟩ => by
    change Expr.get (Form.expr _) (.ofText _) = _
    rw [Expr.expr_form hobject, hproperty.ofText_eq, Expr.relabel]
  | .set _ _ _, ⟨hproperty, hobject, hvalue⟩ => by
    change Expr.set (Form.expr _) (.ofText _) (Form.expr _) = _
    rw [Expr.expr_form hobject, hproperty.ofText_eq, Expr.expr_form hvalue, Expr.relabel]
  | .this _, h => by
    change Expr.this (.ofText "this") = _
    rw [← h, Expr.relabel]
  | .super _ _, ⟨hkeyword, hmethod⟩ => by
    change Expr.super (.ofText "super") (.ofText _) = _
    rw [← hkeyword, hmethod.ofText_eq, Expr.relabel]

theorem Expr.exprs_formAll : ∀ {es : List Expr}, Expr.LegibleAll es →
    Form.exprs (Expr.formAll es) = Expr.relabelAll .erase es
  | [], _ => rfl
  | _ :: _, ⟨he, hrest⟩ => by
    rw [Expr.formAll, Form.exprs, Expr.expr_form he, Expr.exprs_formAll hrest, Expr.relabelAll]

end

theorem Expr.expr_optionForm {e? : Option Expr} (h : ∀ e ∈ e?, e.Legible) :
    (Expr.optionForm e?).head?.map Form.expr = e?.map (·.relabel .erase) := by
  cases e? with
  | none => rfl
  | some e => exact congrArg some (Expr.expr_form (h e rfl))

def FunDecl.ofList : List Form → List Stmt → FunDecl
  | name :: .list params :: _, _ :: _ :: body => ⟨name.token, params.map Form.token, body⟩
  | _, _ => ⟨.ofText "", [], []⟩

def Stmt.ofList (head : Token) (forms : List Form) (stmts : List Stmt) (functions : List FunDecl) : Stmt :=
  match head.kind, forms, stmts, functions with
  | .semicolon, [e], _, _ => .expr e.expr
  | .kwPrint, [value], _, _ => .print head value.expr
  | .kwVar, name :: init, _, _ => .varDecl name.token (init.head?.map Form.expr)
  | .identifier, _, body, _ => .block body
  | .kwIf, condition :: _, [_, yes], _ => .ifThen condition.expr yes
  | .kwIf, condition :: _, [_, yes, no], _ => .ifElse condition.expr yes no
  | .kwWhile, condition :: _, [_, body], _ => .whileLoop condition.expr body
  | .kwReturn, value, _, _ => .ret head (value.head?.map Form.expr)
  | .kwFun, _, _, _ => .funDecl (.ofList forms stmts)
  -- the name of a superclass stands behind a word, methods are lists
  | .kwClass, name :: .word _ :: parent :: _, _, _ :: _ :: _ :: methods =>
    .classDecl name.token (some parent.token) methods
  | .kwClass, name :: _, _, _ :: methods => .classDecl name.token none methods
  | _, _, _, _ => .block []

mutual

def Form.stmt : Form → Stmt
  | .list (.word head :: forms) => .ofList (.ofText head) forms (Form.stmts forms) (Form.functions forms)
  | _ => .block []

def Form.stmts : List Form → List Stmt
  | [] => []
  | f :: rest => f.stmt :: Form.stmts rest

def Form.function : Form → FunDecl
  | .list (_ :: forms) => .ofList forms (Form.stmts forms)
  | _ => .ofList [] []

def Form.functions : List Form → List FunDecl
  | [] => []
  | f :: rest => f.function :: Form.functions rest

end

theorem Form.map_token_words {names : List Token} (h : ∀ name ∈ names, name.Names) :
    (names.map (Form.word ·.lexeme)).map Form.token = names.map Relabelling.erase.apply := by
  rw [List.map_map]
  exact List.map_congr_left fun name hname => (h name hname).ofText_eq

mutual

theorem Stmt.stmt_form : ∀ {s : Stmt}, s.Legible → s.form.stmt = s.relabel .erase
  | .expr _, h => by
    change Stmt.expr (Form.expr _) = _
    rw [Expr.expr_form h, Stmt.relabel]
  | .print _ _, ⟨hkeyword, h⟩ => by
    change Stmt.print (.ofText "print") (Form.expr _) = _
    rw [← hkeyword, Expr.expr_form h, Stmt.relabel]
  | .varDecl _ _, ⟨hname, h⟩ => by
    change Stmt.varDecl (.ofText _) ((Expr.optionForm _).head?.map Form.expr) = _
    rw [hname.ofText_eq, Expr.expr_optionForm h, Stmt.relabel]
  | .block _, h => by
    change Stmt.block (Form.stmts _) = _
    rw [Stmt.stmts_formAll h, Stmt.relabel]
  | .ifThen _ _, ⟨hcondition, h⟩ => by
    change Stmt.ifThen (Form.expr _) (Form.stmt _) = _
    rw [Expr.expr_form hcondition, Stmt.stmt_form h, Stmt.relabel]
  | .ifElse _ _ _, ⟨hcondition, hyes, hno⟩ => by
    change Stmt.ifElse (Form.expr _) (Form.stmt _) (Form.stmt _) = _
    rw [Expr.expr_form hcondition, Stmt.stmt_form hyes, Stmt.stmt_form hno, Stmt.relabel]
  | .whileLoop _ _, ⟨hcondition, h⟩ => by
    change Stmt.whileLoop (Form.expr _) (Form.stmt _) = _
    rw [Expr.expr_form hcondition, Stmt.stmt_form h, Stmt.relabel]
  | .ret _ _, ⟨hkeyword, h⟩ => by
    change Stmt.ret (.ofText "return") ((Expr.optionForm _).head?.map Form.expr) = _
    rw [← hkeyword, Expr.expr_optionForm h, Stmt.relabel]
  | .funDecl f, h => by
    have hfunction : (f.form "fun").function = f.relabel .erase := FunDecl.function_form h
    obtain ⟨name, params, body⟩ := f
    exact congrArg Stmt.funDecl hfunction
  | .classDecl name none methods, ⟨hname, _, hmethods⟩ => by
    have hread : (Stmt.classDecl name none methods).form.stmt =
        .classDecl (.ofText name.lexeme) none (Form.functions (FunDecl.formAll methods)) := by
      -- a first method has to be seen as a list
      rcases methods with _ | ⟨⟨name, params, body⟩, rest⟩ <;> rfl
    rw [hread, hname.ofText_eq, FunDecl.functions_formAll hmethods]
    rfl
  | .classDecl _ (some parent) _, ⟨hname, hparent, hmethods⟩ => by
    change Stmt.classDecl (.ofText _) (some (.ofText _)) (Form.functions (FunDecl.formAll _)) = _
    rw [hname.ofText_eq, (hparent parent rfl).ofText_eq, FunDecl.functions_formAll hmethods]
    rfl

theorem Stmt.stmts_formAll : ∀ {ss : List Stmt}, Stmt.LegibleAll ss →
    Form.stmts (Stmt.formAll ss) = Stmt.relabelAll .erase ss
  | [], _ => rfl
  | _ :: _, ⟨hs, hrest⟩ => by
    rw [Stmt.formAll, Form.stmts, Stmt.stmt_form hs, Stmt.stmts_formAll hrest, Stmt.relabelAll]

theorem FunDecl.function_form {word : String} : ∀ {f : FunDecl}, f.Legible →
    (f.form word).function = f.relabel .erase
  | ⟨_, _, _⟩, ⟨hname, hparams, hbody⟩ => by
    change FunDecl.mk (.ofText _) ((List.map _ _).map Form.token) (Form.stmts _) = _
    rw [hname.ofText_eq, Form.map_token_words hparams, Stmt.stmts_formAll hbody, FunDecl.relabel]

theorem FunDecl.functions_formAll : ∀ {fs : List FunDecl}, FunDecl.LegibleAll fs →
    Form.functions (FunDecl.formAll fs) = FunDecl.relabelAll .erase fs
  | [], _ => rfl
  | _ :: _, ⟨hf, hrest⟩ => by
    rw [FunDecl.formAll, Form.functions, FunDecl.function_form hf, FunDecl.functions_formAll hrest,
      FunDecl.relabelAll]

end

theorem Stmt.formAll_inj : ∀ {ss ss' : List Stmt}, Stmt.LegibleAll ss → Stmt.LegibleAll ss' →
    ss.map Stmt.parenthesized = ss'.map Stmt.parenthesized → Stmt.formAll ss = Stmt.formAll ss'
  | [], [], _, _, _ => rfl
  | s :: rest, s' :: rest', ⟨hs, hrest⟩, ⟨hs', hrest'⟩, h => by
    obtain ⟨htext, hmore⟩ := List.cons.inj h
    have hform : s.form = s'.form := Form.eq_of_text_eq (Stmt.neat_form hs) (Stmt.neat_form hs')
      (by rw [Stmt.text_form, Stmt.text_form, htext])
    rw [Stmt.formAll, Stmt.formAll, hform, Stmt.formAll_inj hrest hrest' hmore]

/-- Two sources without infinite numbers whose statements have the same texts have the same statements,
apart from the places of their tokens. -/
theorem parenthesized_uniquely_readable {index index' : Nat} {source source' : String}
    {program program' : List Stmt} (hparse : parse (scan index source).tokens.toList = .ok program)
    (hparse' : parse (scan index' source').tokens.toList = .ok program')
    (hfinite : ∀ t ∈ (scan index source).tokens.toList, t.value ≠ .infinity)
    (hfinite' : ∀ t ∈ (scan index' source').tokens.toList, t.value ≠ .infinity)
    (htexts : program.map Stmt.parenthesized = program'.map Stmt.parenthesized) :
    program.map (·.relabel .erase) = program'.map (·.relabel .erase) := by
  have hlegible := legible_of_parse hparse hfinite
  have hlegible' := legible_of_parse hparse' hfinite'
  calc program.map (·.relabel .erase)
      = Form.stmts (Stmt.formAll program) := by
        rw [Stmt.stmts_formAll hlegible, Stmt.relabelAll_eq_map]
    _ = Form.stmts (Stmt.formAll program') := by rw [Stmt.formAll_inj hlegible hlegible' htexts]
    _ = program'.map (·.relabel .erase) := by
        rw [Stmt.stmts_formAll hlegible', Stmt.relabelAll_eq_map]

theorem parenthesized_uniquely_readable_layout :
    let assigned (line : Nat) (index : Nat) : Stmt :=
      .expr (.assign ⟨.identifier, "a", line, index, .nil⟩
        (.literal (.str "b (c")))
    (parse (scan 0 "a = \"b (c\";").tokens.toList = .ok [assigned 1 0] ∧
      parse (scan 5 "\na= \"b (c\" ;").tokens.toList = .ok [assigned 2 5]) ∧
    [assigned 1 0].map (·.relabel .erase) = [assigned 2 5].map (·.relabel .erase) := by
  intro assigned
  have htokens : (scan 0 "a = \"b (c\";").tokens.toList =
      [⟨.identifier, "a", 1, 0, .nil⟩, ⟨.equal, "=", 1, 1, .nil⟩,
        ⟨.string, "\"b (c\"", 1, 2, .str "b (c"⟩, ⟨.semicolon, ";", 1, 3, .nil⟩] := by
    decide +kernel
  have htokens' : (scan 5 "\na= \"b (c\" ;").tokens.toList =
      [⟨.identifier, "a", 2, 5, .nil⟩, ⟨.equal, "=", 2, 6, .nil⟩,
        ⟨.string, "\"b (c\"", 2, 7, .str "b (c"⟩, ⟨.semicolon, ";", 2, 8, .nil⟩] := by
    decide +kernel
  have hparse : parse (scan 0 "a = \"b (c\";").tokens.toList = .ok [assigned 1 0] := by
    rw [htokens]
    rfl
  have hparse' : parse (scan 5 "\na= \"b (c\" ;").tokens.toList = .ok [assigned 2 5] := by
    rw [htokens']
    rfl
  refine ⟨⟨hparse, hparse'⟩, parenthesized_uniquely_readable hparse hparse' ?_ ?_ rfl⟩
  · rw [htokens]
    simp [Literal.infinity]
  · rw [htokens']
    simp [Literal.infinity]

end Lox
