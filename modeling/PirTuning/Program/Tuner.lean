import PirTuning.Program.Arguments
import PirTuning.Program.Outcome
import PirTuning.Program.Report

/-!
# The search program

Searches for the cheapest generators of a ring and prints how it went.  The mode
is the number of generators, `2` or `3`; with any other mode the program only
says how it is used.
-/

namespace PirTuning.Program.Tuner

open PirTuning.Rotation
open PirTuning.Search

def grammar : Grammar :=
  { options := [("log-n", .word32), ("threads", .word64), ("verbose", .nothing)]
    required := 0
    allowed := 1 }

def usage : String := "Usage: whispir [2|3]"

def arityOfMode? (mode : String) : Option Arity :=
  if mode = "2" then some .pair
  else if mode = "3" then some .triple
  else none

def configOf (args : Arguments) : Config :=
  { logN := (args.number? "log-n").getD defaultLogN, threads := args.number? "threads" }

def searchFailed : Arity → String
  | .pair => "pair search failed"
  | .triple => "triple search failed"

def finalLines (ring : SlotRing) : Option Best → List String
  | none => ["no generator set reaches every required rotation"]
  | some best =>
    s!"final: {bestLine best.score best.generators}" ::
      (witnessLines? ring best.generators best.times).getD []

def resultLines (arity : Arity) (ring : SlotRing) (outcome : Search.Outcome) : List String :=
  outcome.events.map (eventLine arity) ++
    statsLine outcome.stats :: finalLines ring outcome.best

section

variable (workers : SearchWorkers)

def searchFor (arity : Arity) (config : Config) : Outcome :=
  match SlotRing.ofLogN config.logN with
  | .error cause => .failure "invalid ring size" (some cause.message)
  | .ok ring =>
    match search workers arity config with
    | .error cause => .failure (searchFailed arity) (some cause.message)
    | .ok outcome => .success (resultLines arity ring outcome)

def run (words : List String) : Outcome :=
  match grammar.parse words with
  | .error .help => .helped
  | .error .misuse => .misused
  | .ok args =>
    match args.positionals.head?.bind arityOfMode? with
    | none => .success [usage]
    | some arity => searchFor workers arity (configOf args)

end

end PirTuning.Program.Tuner
