import Lox.Evaluation
import Lox.Proofs.Relabelling.Syntax

/-!
Relabelled values. Closures and classes keep the declarations that they come from, so a relabelling
reaches into values and stores; what a program can see of a value does not depend on it.
-/
namespace Lox

variable {α β : Type}

namespace Bindings

def map (f : α → β) (b : Bindings α) : Bindings β :=
  ⟨b.entries.map fun entry => (entry.1, f entry.2)⟩

theorem lookup_map (f : α → β) (name : String) (entries : List (String × α)) :
    lookup name (entries.map fun entry => (entry.1, f entry.2)) = (lookup name entries).map f := by
  induction entries with
  | nil => rfl
  | cons entry rest ih =>
    by_cases h : name == entry.1
    · simp [lookup, h]
    · simp [lookup, h, ih]

@[simp] theorem get?_map (f : α → β) (b : Bindings α) (name : String) :
    (b.map f).get? name = (b.get? name).map f :=
  lookup_map f name b.entries

@[simp] theorem map_empty (f : α → β) : (empty : Bindings α).map f = empty := rfl

theorem insertEntry_map (f : α → β) (name : String) (value : α) (entries : List (String × α)) :
    insertEntry name (f value) (entries.map fun entry => (entry.1, f entry.2)) =
      (insertEntry name value entries).map fun entry => (entry.1, f entry.2) := by
  induction entries with
  | nil => rfl
  | cons entry rest ih =>
    by_cases h : name == entry.1
    · simp [insertEntry, h]
    · simp [insertEntry, h, ih]

@[simp] theorem map_insert (f : α → β) (b : Bindings α) (name : String) (value : α) :
    (b.insert name value).map f = (b.map f).insert name (f value) := by
  simp only [map, insert, insertEntry_map]

theorem map_ofList (f : α → β) (entries : List (String × α)) :
    (ofList entries).map f = ofList (entries.map fun entry => (entry.1, f entry.2)) := by
  have hfold : ∀ b : Bindings α,
      (entries.foldl (fun b entry => b.insert entry.1 entry.2) b).map f =
        (entries.map fun entry => (entry.1, f entry.2)).foldl
          (fun b entry => b.insert entry.1 entry.2) (b.map f) := by
    induction entries with
    | nil => exact fun _ => rfl
    | cons entry rest ih =>
      intro b
      simp only [List.map_cons, List.foldl_cons]
      rw [ih, map_insert]
  exact hfold empty

end Bindings

namespace Frames

def map (f : α → β) (s : Frames α) : Frames β := ⟨s.frames.map (·.map f)⟩

variable (f : α → β) (s : Frames α)

@[simp] theorem getIn_map (frame : FrameId) (name : String) :
    (s.map f).getIn frame name = (s.getIn frame name).map f := by
  simp only [getIn, map, Array.getElem?_map]
  cases s.frames[frame]? with
  | none => rfl
  | some b => simp

@[simp] theorem defineIn_map (frame : FrameId) (name : String) (value : α) :
    (s.map f).defineIn frame name (f value) = (s.defineIn frame name value).map f := by
  simp only [defineIn, map]
  congr 1
  apply Array.ext
  · simp
  · intro i h h'
    simp only [Array.getElem_modify, Array.getElem_map]
    split <;> simp

@[simp] theorem define_map (env : Environment) (name : String) (value : α) :
    (s.map f).define env name (f value) = (s.define env name value).map f := by
  cases env with
  | nil => rfl
  | cons frame env => exact defineIn_map f s frame name value

@[simp] theorem get_map (env : Environment) (name : String) :
    (s.map f).get env name = (s.get env name).map f := by
  unfold get
  induction env with
  | nil => rfl
  | cons frame env ih =>
    rw [List.findSome?_cons, List.findSome?_cons, getIn_map, ih]
    cases s.getIn frame name <;> rfl

@[simp] theorem getAt_map (env : Environment) (distance : Nat) (name : String) :
    (s.map f).getAt env distance name = (s.getAt env distance name).map f := by
  unfold getAt
  cases env[distance]? with
  | none => rfl
  | some frame => exact getIn_map f s frame name

@[simp] theorem assignIn_map (frame : FrameId) (name : String) (value : α) :
    (s.map f).assignIn frame name (f value) = (s.assignIn frame name value).map (·.map f) := by
  unfold assignIn
  rw [getIn_map, Option.isSome_map, defineIn_map]
  split <;> rfl

@[simp] theorem assign_map (env : Environment) (name : String) (value : α) :
    (s.map f).assign env name (f value) = (s.assign env name value).map (·.map f) := by
  unfold assign
  simp only [getIn_map, Option.isSome_map, defineIn_map]
  split <;> rfl

@[simp] theorem assignAt_map (env : Environment) (distance : Nat) (name : String) (value : α) :
    (s.map f).assignAt env distance name (f value) =
      (s.assignAt env distance name value).map (·.map f) := by
  unfold assignAt
  cases env[distance]? with
  | none => rfl
  | some frame => exact assignIn_map f s frame name value

@[simp] theorem create_map (bindings : Bindings α) (enclosing : Environment) :
    (s.map f).create (bindings.map f) enclosing =
      ((s.create bindings enclosing).1.map f, (s.create bindings enclosing).2) := by
  simp [create, map]

end Frames

variable (r : Relabelling)

def Closure.relabel (c : Closure) : Closure := { c with decl := c.decl.relabel r }

def Class.relabel : Class → Class
  | ⟨id, name, superclass, methods⟩ =>
    match superclass with
    | none => ⟨id, name, none, methods.map (·.relabel r)⟩
    | some parent => ⟨id, name, some parent.relabel, methods.map (·.relabel r)⟩

def Callable.relabel : Callable → Callable
  | .native f => .native f
  | .function id closure => .function id (closure.relabel r)
  | .cls c => .cls (c.relabel r)

def Value.relabel : Value → Value
  | .callable f => .callable (f.relabel r)
  | .object id c => .object id (c.relabel r)
  | v => v

@[simp] theorem Closure.relabel_decl (c : Closure) : (c.relabel r).decl = c.decl.relabel r := rfl

@[simp] theorem Closure.relabel_env (c : Closure) : (c.relabel r).env = c.env := rfl

@[simp] theorem Closure.relabel_isInitializer (c : Closure) :
    (c.relabel r).isInitializer = c.isInitializer := rfl

namespace Class

@[simp] theorem relabel_id (c : Class) : (c.relabel r).id = c.id := by
  rcases c with ⟨_, _, _ | parent, _⟩ <;> rw [relabel]

@[simp] theorem relabel_name (c : Class) : (c.relabel r).name = c.name := by
  rcases c with ⟨_, _, _ | parent, _⟩ <;> rw [relabel]

@[simp] theorem findMethod?_relabel (name : String) : ∀ c : Class,
    (c.relabel r).findMethod? name = (c.findMethod? name).map (·.relabel r)
  | ⟨_, _, none, methods⟩ => by
    rw [relabel]
    unfold findMethod?
    rw [Bindings.get?_map]
    cases methods.get? name <;> rfl
  | ⟨_, _, some parent, methods⟩ => by
    rw [relabel]
    unfold findMethod?
    rw [Bindings.get?_map]
    cases methods.get? name with
    | none => exact findMethod?_relabel name parent
    | some method => rfl

end Class

namespace Callable

@[simp] theorem arity_relabel (f : Callable) : (f.relabel r).arity = f.arity := by
  cases f with
  | native f => rfl
  | function id closure => simp [relabel, arity]
  | cls c => simp [relabel, arity, Function.comp_def]

@[simp] theorem text_relabel (f : Callable) : (f.relabel r).text = f.text := by
  cases f <;> simp [relabel, text]

@[simp] theorem same_relabel (f g : Callable) : (f.relabel r).same (g.relabel r) = f.same g := by
  cases f <;> cases g <;> simp [relabel, same]

end Callable

namespace Value

@[simp] theorem relabel_ofLiteral (value : Literal) : (ofLiteral value).relabel r = ofLiteral value := by
  cases value <;> rfl

@[simp] theorem isTruthy_relabel (v : Value) : (v.relabel r).isTruthy = v.isTruthy := by
  cases v <;> rfl

@[simp] theorem text_relabel (v : Value) : (v.relabel r).text = v.text := by
  cases v <;> simp [relabel, text]

@[simp] theorem equals_relabel (v w : Value) : (v.relabel r).equals (w.relabel r) = v.equals w := by
  cases v <;> cases w <;> simp [relabel, equals]

end Value

@[simp] theorem settles_relabel (op : Kind) (left : Value) :
    settles op (left.relabel r) = settles op left := by
  simp [settles]

theorem unaryOperation_relabel (op : Kind) (operand : Value) :
    unaryOperation op (operand.relabel r) = (unaryOperation op operand).map (·.relabel r) := by
  unfold unaryOperation
  cases operand <;> cases op <;> rfl

theorem numericOperation_relabel {f : Float → Float → Value} (left right : Value)
    (hf : ∀ x y, (f x y).relabel r = f x y) :
    numericOperation (left.relabel r) (right.relabel r) f =
      (numericOperation left right f).map (·.relabel r) := by
  cases left <;> cases right
  case num.num x y => exact congrArg Except.ok (hf x y).symm
  all_goals rfl

theorem binaryOperation_relabel (op : Kind) (left right : Value) :
    binaryOperation op (left.relabel r) (right.relabel r) =
      (binaryOperation op left right).map (·.relabel r) := by
  cases op
  case plus => cases left <;> cases right <;> rfl
  case minus | slash | star | greater | greaterEqual | less | lessEqual =>
    exact numericOperation_relabel r left right fun _ _ => rfl
  case equalEqual | bangEqual =>
    rw [binaryOperation, binaryOperation, Value.equals_relabel]
    rfl
  all_goals rfl

section Stay

open Relabelling

@[simp] theorem Bindings.map_self {α : Type} (b : Bindings α) : (b.map fun value => value) = b := by
  simp [Bindings.map]

@[simp] theorem Frames.map_self {α : Type} (s : Frames α) : (s.map fun value => value) = s := by
  simp [Frames.map]

@[simp] theorem Closure.relabel_stay (c : Closure) : c.relabel stay = c := by simp [Closure.relabel]

@[simp] theorem Class.relabel_stay : ∀ c : Class, c.relabel stay = c
  | ⟨_, _, none, methods⟩ => by
    rw [Class.relabel]
    simp
  | ⟨_, _, some parent, methods⟩ => by
    rw [Class.relabel, Class.relabel_stay parent]
    simp

@[simp] theorem Value.relabel_stay (v : Value) : v.relabel stay = v := by
  cases v with
  | callable f => cases f <;> simp [Value.relabel, Callable.relabel]
  | object id c => simp [Value.relabel]
  | nil | bool _ | num _ | str _ => rfl

end Stay

end Lox
