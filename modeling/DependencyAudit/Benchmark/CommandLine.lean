import DependencyAudit.Benchmark.Run

/-!
# The command line of the benchmark

The benchmark has one setting, the number of files, and offers help.  A long
option may be shortened as long as it stays unique.  Tokens that could stand for
several options are refused before any is acted on; then the words are read from
the left, and a request for help ends the reading.
-/

namespace DependencyAudit.Benchmark

open CommandLine

def helpSpellings : List String := ["-h", "--help"]

def countSpellings : List String := ["--num-files"]

def benchmarkVocabulary : Vocabulary where
  options := helpSpellings ++ countSpellings
  abbreviations := true

def defaultCount : Int := 5000

/-- Why the reading ends before the last word. -/
inductive Stop where
  | help
  | invalid (error : OptionError)
  deriving DecidableEq, Repr

/-- What a text attached to the request for help means.  The short spelling may
be repeated within one token; anything else is refused. -/
def attachedHelp (name text : String) : Stop :=
  let rest := if name = "-h" then text.toList.dropWhile (· = 'h') else text.toList
  if rest.isEmpty && !text.isEmpty then .help
  else .invalid (.valueRefused (label helpSpellings) (String.ofList rest))

def applyCount (count : Int) (name : String) (value : Option String) : Except Stop Int :=
  if helpSpellings.contains name then
    match value with
    | none => .error .help
    | some text => .error (attachedHelp name text)
  else
    match value with
    | none => .ok count
    | some text =>
      match Text.integer? text with
      | some count => .ok count
      | none => .error (.invalid (.notInteger (label countSpellings) text))

def countActions : Actions Int Stop where
  takesValue := countSpellings.contains
  apply := applyCount
  missing _ := .invalid (.valueMissing (label countSpellings))

def firstAmbiguous? (words : List Word) : Option OptionError :=
  words.findSome? fun word =>
    match word.mark with
    | .ambiguous names => some (.ambiguous word.token names)
    | _ => none

def parseCount (tokens : List String) : Except Stop Int :=
  let words := mark benchmarkVocabulary tokens
  match firstAmbiguous? words with
  | some error => .error (.invalid error)
  | none =>
    match countActions.consume defaultCount words with
    | .error stop => .error stop
    | .ok (count, []) => .ok count
    | .ok (_, unused) => .error (.invalid (.unrecognized unused))

def usage : String := "usage: benchmark.py [-h] [--num-files NUM_FILES]\n"

def usageDetails : String :=
  "\nBenchmark for dep-guard.\n\noptions:\n" ++
    "  -h, --help            show this help message and exit\n" ++
    "  --num-files NUM_FILES\n" ++
    "                        Number of source files to generate for the benchmark.\n"

def runCommand (limits : Limits) (tree : Tree) (surroundings : Surroundings)
    (tokens : List String) : Effect Transcript :=
  match parseCount tokens with
  | .ok count => run limits tree surroundings count
  | .error .help => ⟨tree, .ok { stdout := usage ++ usageDetails }⟩
  | .error (.invalid error) =>
    ⟨tree, .ok {
      exitCode := 2
      stderr := usage ++ "benchmark.py: error: " ++ error.message ++ "\n" }⟩

end DependencyAudit.Benchmark
