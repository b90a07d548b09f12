/-!
Where text goes. A sink takes text as a whole or refuses it with a reason. Output and diagnostics have
sinks of their own or share one.
-/
namespace Lox

structure Sink where
  taken : String
  /-- Why the sink refuses a text, given what it took before. -/
  refusal? : (taken offered : String) → Option String

namespace Sink

def unlimited : Sink := ⟨"", fun _ _ => none⟩

/-- Takes text until it has taken a number of line ends. -/
def ofLines (limit : Nat) : Sink :=
  ⟨"", fun taken _ => if limit ≤ taken.toList.count '\n' then some "sink full" else none⟩

def offer (s : Sink) (text : String) : Option String × Sink :=
  match s.refusal? s.taken text with
  | some reason => (some reason, s)
  | none => (none, { s with taken := s.taken ++ text })

end Sink

inductive Console where
  | separate (out err : Sink)
  | shared (sink : Sink)

namespace Console

def print (c : Console) (text : String) : Option String × Console :=
  match c with
  | separate out err =>
    let (refusal, out) := out.offer text
    (refusal, separate out err)
  | shared sink =>
    let (refusal, sink) := sink.offer text
    (refusal, shared sink)

def complain (c : Console) (text : String) : Option String × Console :=
  match c with
  | separate out err =>
    let (refusal, err) := err.offer text
    (refusal, separate out err)
  | shared sink =>
    let (refusal, sink) := sink.offer text
    (refusal, shared sink)

/-- Offers a diagnostic, which is lost if it is refused. -/
def report (c : Console) (text : String) : Console := (c.complain text).2

def output : Console → String
  | separate out _ => out.taken
  | shared sink => sink.taken

/-- The diagnostics taken so far, if they have a sink of their own. -/
def diagnostics : Console → String
  | separate _ err => err.taken
  | shared _ => ""

end Console

end Lox
