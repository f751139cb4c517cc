import DependencyAudit.CommandLine.Options

/-!
# Reading the command line

A request for help wins over everything.  Otherwise the tokens are split: those
the audit knows, each setting with the token after it, and those it ignores.  The
known ones are marked and read from the left.  So a misspelt option is passed
over, but a setting without a usable value is an error.
-/

namespace DependencyAudit.CommandLine

def isFlag (token : String) : Bool := flagOptions.contains token

def isSetting (token : String) : Bool := settingOptions.contains token

/-- Whether a token is a long setting with a value after an equals sign. -/
def isAssignment (token : String) : Bool :=
  startsWith token "--" &&
    match assignment? token with
    | some (name, _) => isSetting name
    | none => false

/-- The tokens that the audit knows, and those that it ignores. -/
def splitKnown : List String → List String × List String
  | [] => ([], [])
  | token :: rest =>
    if isSetting token then
      match rest with
      | [] => ([token], [])
      | value :: later =>
        let (known, ignored) := splitKnown later
        (token :: value :: known, ignored)
    else
      let (known, ignored) := splitKnown rest
      if isFlag token || isAssignment token then (token :: known, ignored)
      else (known, token :: ignored)

def vocabulary : Vocabulary := { options := flagOptions ++ settingOptions }

/-- The label of an option, or its name when it is not one of the audit's. -/
def labelOf (name : String) : String :=
  match Flag.ofName? name, Setting.ofName? name with
  | some flag, _ => label flag.spellings
  | _, some setting => label setting.spellings
  | none, none => name

def applyOption (options : Options) (name : String) (value : Option String) :
    Except OptionError Options :=
  match Flag.ofName? name, Setting.ofName? name, value with
  | some flag, _, none => .ok (options.setFlag flag)
  | some _, _, some text => .error (.valueRefused (labelOf name) text)
  | none, some setting, some text => options.set setting text
  | none, some _, none => .error (.valueMissing (labelOf name))
  | none, none, _ => .ok options

def actions : Actions Options OptionError where
  takesValue := isSetting
  apply := applyOption
  missing name := .valueMissing (labelOf name)

def readKnown (tokens : List String) : Except OptionError Options :=
  (actions.consume {} (mark vocabulary tokens)).map Prod.fst

inductive Request where
  | help
  | invalid (error : OptionError)
  | audit (options : Options)
  deriving DecidableEq, Repr

def checkWorkers (options : Options) : Request :=
  if options.workers < 1 then .invalid .tooFewWorkers
  else if (maxWorkers : Int) < options.workers then .invalid .tooManyWorkers
  else .audit options

def parse (tokens : List String) : Logged Request :=
  if tokens.any helpOptions.contains then ⟨.help, []⟩
  else
    let (known, ignored) := splitKnown tokens
    match readKnown known with
    | .error error => ⟨.invalid error, []⟩
    | .ok options =>
      ⟨checkWorkers options, if ignored.isEmpty then [] else [.ignoredTokens ignored]⟩

end DependencyAudit.CommandLine
