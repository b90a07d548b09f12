import Lox.Number.Decimal
import Lox.Token

/-!
Sources as sequences of pieces. Every character of a source belongs to exactly one piece: a blank, a
comment, a character that starts nothing, or a lexeme. `scan` walks the pieces from left to right,
counting lines, and keeps the lexemes as tokens.
-/
namespace Lox

inductive LexicalError where
  | unexpectedCharacter (c : Char) (line : Nat)
  | unterminatedString (line : Nat)
deriving DecidableEq, Repr

def LexicalError.line : LexicalError → Nat
  | .unexpectedCharacter _ line => line
  | .unterminatedString line => line

namespace Source

inductive Category where
  | blank
  | comment
  | stray (c : Char)
  | lexeme (kind : Kind)
  /-- A string that the end of the source cuts off. -/
  | openString
deriving DecidableEq, Repr

structure Piece where
  category : Category
  text : List Char
deriving DecidableEq, Repr

def isBlank (c : Char) : Bool := c = ' ' || c = '\t' || c = '\r' || c = '\n'

def isWordStart (c : Char) : Bool := c.isAlpha || c = '_'

def isWordPart (c : Char) : Bool := isWordStart c || c.isDigit

def single? : Char → Option Kind
  | '(' => some .leftParen
  | ')' => some .rightParen
  | '{' => some .leftBrace
  | '}' => some .rightBrace
  | ',' => some .comma
  | '.' => some .dot
  | '-' => some .minus
  | '+' => some .plus
  | ';' => some .semicolon
  | '/' => some .slash
  | '*' => some .star
  | '!' => some .bang
  | '=' => some .equal
  | '<' => some .less
  | '>' => some .greater
  | _ => none

/-- The lexemes that a character forms with an equals sign behind it. -/
def withEqual? : Char → Option Kind
  | '!' => some .bangEqual
  | '=' => some .equalEqual
  | '<' => some .lessEqual
  | '>' => some .greaterEqual
  | _ => none

def run (p : Char → Bool) (cs : List Char) : Nat := (cs.takeWhile p).length

/-- How many characters behind its first digit a number takes: digits, then a point only if a digit
follows it. -/
def numberRun (rest : List Char) : Nat :=
  let whole := run Char.isDigit rest
  match rest.drop whole with
  | '.' :: d :: more => if d.isDigit then whole + 2 + run Char.isDigit more else whole
  | _ => whole

/-- The category of the piece that starts with `c`, and how many characters of `rest` it takes. -/
def classify (c : Char) (rest : List Char) : Category × Nat :=
  if isBlank c then (.blank, 0)
  else if c = '/' ∧ rest.head? = some '/' then (.comment, run (· != '\n') rest)
  else if c = '"' then
    let body := run (· != '"') rest
    if (rest.drop body).isEmpty then (.openString, body) else (.lexeme .string, body + 1)
  else if c.isDigit then (.lexeme .number, numberRun rest)
  else if isWordStart c then
    let more := run isWordPart rest
    (.lexeme (Kind.ofWord (String.ofList (c :: rest.take more))), more)
  else
    match withEqual? c, rest.head? with
    | some kind, some '=' => (.lexeme kind, 1)
    | _, _ => ((single? c).elim (.stray c) .lexeme, 0)

def split (c : Char) (rest : List Char) : Piece × List Char :=
  let (category, more) := classify c rest
  (⟨category, c :: rest.take more⟩, rest.drop more)

theorem length_split_snd_le (c : Char) (rest : List Char) :
    (split c rest).2.length ≤ rest.length := by
  simp [split]

def valueOf (kind : Kind) (text : List Char) : Literal :=
  match kind with
  | .string => .str (String.ofList (text.drop 1).dropLast)
  | .number => .num (Decimal.read text)
  | .kwTrue => .bool true
  | .kwFalse => .bool false
  | _ => .nil

end Source

/-- A scan in progress: what it found, and the line and the index at which it stands. -/
structure Scan where
  tokens : Array Token
  errors : Array LexicalError
  line : Nat
  index : Nat

namespace Scan

open Source

def start (index : Nat) : Scan := ⟨#[], #[], 1, index⟩

def finish (s : Scan) : EndMark := ⟨s.line, s.index⟩

def emit (s : Scan) (kind : Kind) (text : List Char) (value : Literal) : Scan :=
  { s with
    tokens := s.tokens.push ⟨kind, String.ofList text, s.line, s.index, value⟩
    index := s.index + 1 }

def report (s : Scan) (e : LexicalError) : Scan := { s with errors := s.errors.push e }

/-- Adds a piece. Lines are counted first, so that a token has the line on which it ends. -/
def add (s : Scan) (p : Piece) : Scan :=
  let s := { s with line := s.line + p.text.count '\n' }
  match p.category with
  | .blank | .comment => s
  | .stray c => s.report (.unexpectedCharacter c s.line)
  | .lexeme kind => s.emit kind p.text (valueOf kind p.text)
  | .openString =>
    (s.report (.unterminatedString s.line)).emit .string p.text (.str (String.ofList (p.text.drop 1)))

def addAll (s : Scan) : List Char → Scan
  | [] => s
  | c :: rest =>
    have := length_split_snd_le c rest
    (s.add (split c rest).1).addAll (split c rest).2
termination_by cs => cs.length
decreasing_by simp; omega

end Scan

/-- Scans a source whose first token gets the given index. -/
def scan (index : Nat) (source : String) : Scan := (Scan.start index).addAll source.toList

end Lox
