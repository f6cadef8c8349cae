import PirTuning.Checkpoint.Blank
import PirTuning.Decimal

/-!
# Checkpoint rows

A checkpoint file is a sequence of lines, one per row, without a header.  A row
has four numbers, separated by commas: how many trials were finished, the number
of bins, the number of balls, and the largest load seen.
-/

namespace PirTuning.Checkpoint

structure Row where
  runs : Nat
  bins : Nat
  balls : Nat
  maxLoad : Nat
  deriving Repr, DecidableEq

namespace Row

def render (row : Row) : String :=
  s!"{row.runs},{row.bins},{row.balls},{row.maxLoad}\n"

def fields? (line : List Char) : Option (List Nat) :=
  (line.splitOn ',').mapM fun field => Decimal.word64? (trim field)

def parse? (line : List Char) : Option Row :=
  match fields? line with
  | some [runs, bins, balls, maxLoad] =>
    some { runs := runs, bins := bins, balls := balls, maxLoad := maxLoad }
  | _ => none

end Row

def renderRows (rows : List Row) : String :=
  String.join (rows.map Row.render)

/-! ## Lines -/

def dropReturn (line : List Char) : List Char :=
  match line.reverse with
  | '\r' :: rest => rest.reverse
  | _ => line

/-- The ended lines of a text that was cut at its line ends, and the piece that
    no line end follows. -/
def endLines : List (List Char) → List (List Char)
  | [] => []
  | [last] => [last]
  | line :: rest => dropReturn line :: endLines rest

/-- What follows the last line end counts as a line, too. -/
def textLines (text : List Char) : List (List Char) :=
  endLines (text.splitOn '\n')

def isBlankLine (line : List Char) : Bool :=
  line.all isBlank

/-- Read lines, up to the first one that is no row; that line is the error. -/
def parseLines : List (List Char) → Except String (List Row)
  | [] => .ok []
  | line :: rest =>
    match Row.parse? line with
    | none => .error (String.ofList line)
    | some row => (parseLines rest).map (row :: ·)

def parseRows (text : String) : Except String (List Row) :=
  parseLines ((textLines text.toList).filter fun line => !isBlankLine line)

end PirTuning.Checkpoint
