/-!
Finite maps from names. A name is bound at most once: a second insertion replaces the first in place.
-/
namespace Lox

structure Bindings (α : Type) where
  entries : List (String × α) := []
deriving Inhabited

namespace Bindings

variable {α : Type}

def empty : Bindings α := {}

def lookup (name : String) : List (String × α) → Option α
  | [] => none
  | entry :: rest => if name == entry.1 then some entry.2 else lookup name rest

def get? (b : Bindings α) (name : String) : Option α := lookup name b.entries

def binds (b : Bindings α) (name : String) : Bool := (b.get? name).isSome

def insertEntry (name : String) (value : α) : List (String × α) → List (String × α)
  | [] => [(name, value)]
  | entry :: rest =>
    if name == entry.1 then (name, value) :: rest else entry :: insertEntry name value rest

def insert (b : Bindings α) (name : String) (value : α) : Bindings α :=
  ⟨insertEntry name value b.entries⟩

def ofList (entries : List (String × α)) : Bindings α :=
  entries.foldl (fun b entry => b.insert entry.1 entry.2) empty

def names (b : Bindings α) : List String := b.entries.map Prod.fst

theorem lookup_insertEntry (name other : String) (value : α) (entries : List (String × α)) :
    lookup other (insertEntry name value entries) =
      if other = name then some value else lookup other entries := by
  induction entries with
  | nil => simp [insertEntry, lookup]
  | cons entry rest ih =>
    by_cases hk : name = entry.1 <;> by_cases ho : other = name <;>
      simp_all [insertEntry, lookup]

@[simp] theorem get?_empty (name : String) : (empty : Bindings α).get? name = none := rfl

@[simp] theorem get?_insert (b : Bindings α) (name other : String) (value : α) :
    (b.insert name value).get? other = if other = name then some value else b.get? other :=
  lookup_insertEntry name other value b.entries

end Bindings

end Lox
