import LayeredConfig.Text.Quoted

/-!
# Lines of generated code

Generated code is kept as a list of steps that a writer takes: it puts down a
line at the current level of indentation, or changes the level.  A line is
blank, a comment, or code.  In a line of code the string literals stand apart
from the rest, given by the text they denote, so that brackets and quotes of
the code can be told from those inside literals and comments.
-/

namespace LayeredConfig.Code

/-- A part of a line of code. -/
inductive Piece where
  | code (text : String)
  | literal (text : String)
deriving DecidableEq, Inhabited

inductive Line where
  | blank
  | comment (text : String)
  | doc (text : String)
  | code (pieces : List Piece)
deriving DecidableEq, Inhabited

/-- What a writer does next. -/
inductive Step where
  /-- Writes a line. -/
  | line (line : Line)
  /-- Writes a line and goes one level deeper. -/
  | enter (line : Line)
  /-- Goes one level up and writes a line. -/
  | leave (line : Line)
  /-- Goes one level deeper. -/
  | deeper
deriving DecidableEq, Inhabited

namespace Piece

/-- The written form; a literal is quoted. -/
def write : Piece → List Char
  | code text => text.toList
  | literal text => Text.Quoted.quote text.toList

end Piece

namespace Line

/-- The characters of a line without indentation and line break. -/
def content : Line → List Char
  | blank => []
  | comment text => "// ".toList ++ text.toList
  | doc text => if text = "" then "///".toList else "/// ".toList ++ text.toList
  | code pieces => pieces.flatMap Piece.write

/-- The line at a level of indentation.  A blank line has none. -/
def write (level : Nat) (line : Line) : List Char :=
  match line with
  | blank => ['\n']
  | line => List.replicate (4 * level) ' ' ++ line.content ++ ['\n']

end Line

namespace Step

/-- The level after a step from `level`.  There is none above the first. -/
def after (level : Nat) : Step → Nat
  | line _ => level
  | enter _ => level + 1
  | leave _ => level - 1
  | deeper => level + 1

def write (level : Nat) : Step → List Char
  | line l => l.write level
  | enter l => l.write level
  | leave l => l.write (level - 1)
  | deeper => []

def writeAll (level : Nat) : List Step → List Char
  | [] => []
  | step :: steps => step.write level ++ writeAll (step.after level) steps

/-- A line of code without literals. -/
def text (s : String) : Step := line (.code [.code s])

def pieces (ps : List Piece) : Step := line (.code ps)

/-- A line of code without literals that begins a block. -/
def block (s : String) : Step := enter (.code [.code s])

def blockOf (ps : List Piece) : Step := enter (.code ps)

def close (s : String) : Step := leave (.code [.code s])

def closeBrace : Step := close "\x7d"

def gap : Step := line .blank

def doc (s : String) : Step := line (.doc s)

end Step

def literals : List String → List Piece
  | [] => []
  | [one] => [.literal one]
  | one :: next :: rest => .literal one :: .code ", " :: literals (next :: rest)

end LayeredConfig.Code
