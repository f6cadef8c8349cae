import PirTuning.Decimal

/-!
# Command line arguments

A program has some positionals and some named options.  An option is written
`--name value` or `--name=value`, a flag just `--name`, anywhere among the
positionals; behind `--` everything is positional.  A value in a word of its own
does not start with a dash, a lone dash excepted.  No option may be repeated.

Words are read from left to right.  The first fault ends it, and so does a plea for
help; values are checked as they are read.
-/

namespace PirTuning.Program

/-! ## Grammars -/

inductive ValueKind where
  | nothing
  | word32
  | word64
  | path
  deriving Repr, DecidableEq

inductive Value where
  | present
  | number (n : Nat)
  | text (s : String)
  deriving Repr, DecidableEq

/-- The options of a program, and how many positionals it takes at least and at most. -/
structure Grammar where
  options : List (String × ValueKind)
  required : Nat
  allowed : Nat
  deriving Repr, DecidableEq

structure Arguments where
  positionals : List String := []
  options : List (String × Value) := []
  deriving Repr, DecidableEq

/-- The words do not fit, unless they ask for help. -/
inductive Refusal where
  | help
  | misuse
  deriving Repr, DecidableEq

namespace ValueKind

def read? (kind : ValueKind) (text : String) : Option Value :=
  match kind with
  | .nothing => none
  | .word32 => (Decimal.word32? text.toList).map Value.number
  | .word64 => (Decimal.word64? text.toList).map Value.number
  | .path => if text.isEmpty then none else some (.text text)

end ValueKind

/-! ## Words -/

/-- A lone dash is plain, and a long word may have a value attached. -/
inductive Word where
  | rest
  | long (name : String) (attached : Option String)
  | short (letter : Char)
  | plain
  deriving Repr, DecidableEq

def attached? (body : List Char) : Option String :=
  match body.dropWhile (· != '=') with
  | [] => none
  | _ :: value => some (String.ofList value)

def Word.ofString (word : String) : Word :=
  match word.toList with
  | ['-', '-'] => .rest
  | '-' :: '-' :: body => .long (String.ofList (body.takeWhile (· != '='))) (attached? body)
  | '-' :: letter :: _ => .short letter
  | _ => .plain

/-! ## Arguments -/

namespace Arguments

def has (args : Arguments) (name : String) : Bool :=
  (args.options.lookup name).isSome

def number? (args : Arguments) (name : String) : Option Nat :=
  match args.options.lookup name with
  | some (.number n) => some n
  | _ => none

def text? (args : Arguments) (name : String) : Option String :=
  match args.options.lookup name with
  | some (.text s) => some s
  | _ => none

def addPositional (grammar : Grammar) (args : Arguments) (word : String) :
    Except Refusal Arguments :=
  if args.positionals.length < grammar.allowed then
    .ok { args with positionals := args.positionals ++ [word] }
  else
    .error .misuse

def addPositionals (grammar : Grammar) : List String → Arguments → Except Refusal Arguments
  | [], args => .ok args
  | word :: words, args =>
    match args.addPositional grammar word with
    | .error refusal => .error refusal
    | .ok args' => addPositionals grammar words args'

def addOption (args : Arguments) (name : String) (value : Value) : Except Refusal Arguments :=
  if args.has name then .error .misuse
  else .ok { args with options := args.options ++ [(name, value)] }

def addValue (args : Arguments) (name : String) (kind : ValueKind) (text : String) :
    Except Refusal Arguments :=
  match kind.read? text with
  | none => .error .misuse
  | some value => args.addOption name value

end Arguments

/-! ## Reading -/

def readWords (grammar : Grammar) : List String → Arguments → Except Refusal Arguments
  | [], args => .ok args
  | word :: words, args =>
    match Word.ofString word with
    -- whatever follows is positional, even if it looks like an option
    | .rest => args.addPositionals grammar words
    | .plain =>
      match args.addPositional grammar word with
      | .error refusal => .error refusal
      | .ok args' => readWords grammar words args'
    | .short letter => .error (if letter = 'h' then .help else .misuse)
    | .long "help" attached => .error (if attached.isSome then .misuse else .help)
    | .long name (some text) =>
      match grammar.options.lookup name with
      | none => .error .misuse
      | some kind =>
        match args.addValue name kind text with
        | .error refusal => .error refusal
        | .ok args' => readWords grammar words args'
    | .long name none =>
      match grammar.options.lookup name with
      | none => .error .misuse
      | some .nothing =>
        match args.addOption name .present with
        | .error refusal => .error refusal
        | .ok args' => readWords grammar words args'
      | some kind =>
        -- the value is the next word, unless that looks like an option
        match words with
        | [] => .error .misuse
        | text :: words' =>
          match Word.ofString text with
          | .plain =>
            match args.addValue name kind text with
            | .error refusal => .error refusal
            | .ok args' => readWords grammar words' args'
          | _ => .error .misuse

def Grammar.parse (grammar : Grammar) (words : List String) : Except Refusal Arguments :=
  match readWords grammar words {} with
  | .error refusal => .error refusal
  | .ok args =>
    if args.positionals.length < grammar.required then .error .misuse else .ok args

end PirTuning.Program
