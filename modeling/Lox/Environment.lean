import Lox.Bindings

/-!
Frames of variables and chains of them. Frames live in a store, so that closures share them; an
environment is the chain of frames that a piece of code sees. Names are found by searching the chain
outwards, or in the frame at a known distance.
-/
namespace Lox

/-- Frames in the order of their creation. -/
structure Frames (α : Type) where
  frames : Array (Bindings α) := #[]

abbrev FrameId := Nat

/-- A chain of frames, innermost first. -/
abbrev Environment := List FrameId

namespace Frames

variable {α : Type}

def empty : Frames α := {}

def create (s : Frames α) (bindings : Bindings α) (enclosing : Environment) :
    Frames α × Environment :=
  (⟨s.frames.push bindings⟩, s.frames.size :: enclosing)

def getIn (s : Frames α) (frame : FrameId) (name : String) : Option α :=
  s.frames[frame]?.bind (·.get? name)

def defineIn (s : Frames α) (frame : FrameId) (name : String) (value : α) : Frames α :=
  ⟨s.frames.modify frame (·.insert name value)⟩

def define (s : Frames α) (env : Environment) (name : String) (value : α) : Frames α :=
  match env with
  | [] => s
  | frame :: _ => s.defineIn frame name value

/-- The value in the innermost frame that binds a name. -/
def get (s : Frames α) (env : Environment) (name : String) : Option α :=
  env.findSome? (s.getIn · name)

/-- Gives a bound name of one frame a new value. -/
def assignIn (s : Frames α) (frame : FrameId) (name : String) (value : α) : Option (Frames α) :=
  if (s.getIn frame name).isSome then some (s.defineIn frame name value) else none

def assign (s : Frames α) (env : Environment) (name : String) (value : α) : Option (Frames α) :=
  match env.find? fun frame => (s.getIn frame name).isSome with
  | some frame => some (s.defineIn frame name value)
  | none => none

/-- The value in the frame at a distance. Other frames are not looked at. -/
def getAt (s : Frames α) (env : Environment) (distance : Nat) (name : String) : Option α :=
  env[distance]?.bind (s.getIn · name)

/-- Gives a name a new value in the frame at a distance, if it is bound there. -/
def assignAt (s : Frames α) (env : Environment) (distance : Nat) (name : String) (value : α) :
    Option (Frames α) :=
  env[distance]?.bind (s.assignIn · name value)

end Frames

end Lox
