import DependencyAudit.CommandLine.CommaList
import DependencyAudit.CommandLine.Word
import DependencyAudit.Report.Format
import DependencyAudit.Text.Integer

/-!
# Options of the audit

A flag stands alone; a setting takes a value.  Each has a spelling of two dashes
and most have one of a single dash.  An error of the command line names the
option it is about by all of its spellings.
-/

namespace DependencyAudit.CommandLine

inductive Flag where
  | text
  | json
  | all
  | parallel
  | verbose
  deriving DecidableEq, Repr

inductive Setting where
  | root
  | manifest
  | ignored
  | workers
  deriving DecidableEq, Repr

def Flag.every : List Flag := [.text, .json, .all, .parallel, .verbose]

def Flag.spellings : Flag → List String
  | .text => ["-t", "--text"]
  | .json => ["-j", "--json"]
  | .all => ["-a", "--all"]
  | .parallel => ["--parallel"]
  | .verbose => ["-v", "--verbose"]

def Setting.every : List Setting := [.root, .manifest, .ignored, .workers]

def Setting.spellings : Setting → List String
  | .root => ["-d", "--dst-dir"]
  | .manifest => ["-p", "--package-json"]
  | .ignored => ["-i", "--ignore"]
  | .workers => ["--max-workers"]

def flagOptions : List String := Flag.every.flatMap Flag.spellings

def settingOptions : List String := Setting.every.flatMap Setting.spellings

def helpOptions : List String := ["-h", "--help"]

def Flag.ofName? (name : String) : Option Flag :=
  Flag.every.find? fun flag => flag.spellings.contains name

def Setting.ofName? (name : String) : Option Setting :=
  Setting.every.find? fun setting => setting.spellings.contains name

/-- The spellings of an option in a message. -/
def label (spellings : List String) : String :=
  "/".intercalate spellings

def maxWorkers : Nat := 64

def defaultRoot : String := "./src"

def defaultManifest : String := "./package.json"

structure Options where
  format : Report.Format := .text
  root : String := defaultRoot
  manifest : String := defaultManifest
  checkAll : Bool := false
  ignored : List String := []
  parallel : Bool := false
  workers : Int := 4
  verbose : Bool := false
  deriving DecidableEq, Repr

inductive OptionError where
  | valueMissing (label : String)
  | valueRefused (label value : String)
  | notInteger (label value : String)
  | ambiguous (token : String) (names : List String)
  | unrecognized (tokens : List String)
  | tooFewWorkers
  | tooManyWorkers
  deriving DecidableEq, Repr

def OptionError.message : OptionError → String
  | .valueMissing label => "argument " ++ label ++ ": expected one argument"
  | .valueRefused label value =>
    "argument " ++ label ++ ": ignored explicit argument " ++ Text.quoted value
  | .notInteger label value =>
    "argument " ++ label ++ ": invalid int value: " ++ Text.quoted value
  | .ambiguous token names =>
    "ambiguous option: " ++ token ++ " could match " ++ ", ".intercalate names
  | .unrecognized tokens => "unrecognized arguments: " ++ " ".intercalate tokens
  | .tooFewWorkers => "--max-workers must be at least 1"
  | .tooManyWorkers => "--max-workers should not exceed " ++ toString maxWorkers

def Options.setFlag (options : Options) : Flag → Options
  | .text => { options with format := .text }
  | .json => { options with format := .json }
  | .all => { options with checkAll := true }
  | .parallel => { options with parallel := true }
  | .verbose => { options with verbose := true }

def Options.set (options : Options) (setting : Setting) (value : String) :
    Except OptionError Options :=
  match setting with
  | .root => .ok { options with root := value }
  | .manifest => .ok { options with manifest := value }
  | .ignored => .ok { options with ignored := nameSet value }
  | .workers =>
    match Text.integer? value with
    | some workers => .ok { options with workers }
    | none => .error (.notInteger (label setting.spellings) value)

/-- The order in which sources are read. -/
def Options.mode (options : Options) : Source.Mode :=
  if options.parallel then .parallel options.workers else .sequential

end DependencyAudit.CommandLine
