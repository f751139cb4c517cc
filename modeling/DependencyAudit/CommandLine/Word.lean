import DependencyAudit.Text.DecimalDigit
import DependencyAudit.Text.Quoted

/-!
# Words of a command line

Before any option is acted on, every token of a command line is marked: as an
option, perhaps with a value attached to it, as an operand, as the separator after
which all is operand, or as a stranger.  A token that starts with a dash is an
operand only when it is a negative number or holds a space, and when no known
option can be read from it.  The marks then drive one pass from the left, in
which an option that takes a value takes the next word if it is an operand.
-/

namespace DependencyAudit.CommandLine

/-- The spellings of the options of a program, and whether a unique beginning of
a long one stands for it. -/
structure Vocabulary where
  options : List String
  abbreviations : Bool := false
  deriving DecidableEq, Repr

inductive Mark where
  | option (name : String) (attached : Option String)
  | operand
  | separator
  | stranger
  | ambiguous (names : List String)
  deriving DecidableEq, Repr

structure Word where
  token : String
  mark : Mark
  deriving DecidableEq, Repr

/-- The texts before and after the first equals sign. -/
def assignment? (token : String) : Option (String × String) :=
  let name := token.toList.takeWhile (· ≠ '=')
  match token.toList.drop name.length with
  | [] => none
  | _ :: value => some (String.ofList name, String.ofList value)

def startsWith (text start : String) : Bool :=
  start.toList.isPrefixOf text.toList

def withoutFinalNewline (text : List Char) : List Char :=
  if text.getLast? = some '\n' then text.dropLast else text

/-- Whether a token is a dash and digits, or a dash and digits after a point with
or without digits before it.  One line feed at the end does not count. -/
def isNegativeNumber (token : String) : Bool :=
  match withoutFinalNewline token.toList with
  | '-' :: rest =>
    let whole := rest.takeWhile Text.isDecimalDigit
    match rest.drop whole.length with
    | [] => !whole.isEmpty
    | '.' :: fraction => !fraction.isEmpty && fraction.all Text.isDecimalDigit
    | _ => false
  | _ => false

/-- The long options that a token may abbreviate. -/
def abbreviated (vocabulary : Vocabulary) (token : String) : List (String × Option String) :=
  if vocabulary.abbreviations then
    match assignment? token with
    | some (start, value) =>
      (vocabulary.options.filter (startsWith · start)).map fun name => (name, some value)
    | none => (vocabulary.options.filter (startsWith · token)).map fun name => (name, none)
  else []

/-- The options that a token with one leading dash may stand for: one of two
characters with the rest attached to it, or one that starts with the token. -/
def glued (vocabulary : Vocabulary) (token : String) : List (String × Option String) :=
  let short := String.ofList (token.toList.take 2)
  vocabulary.options.filterMap fun name =>
    if name = short then some (name, some (String.ofList (token.toList.drop 2)))
    else if startsWith name token then some (name, none)
    else none

/-- The options that a token may stand for without spelling one out. -/
def candidates (vocabulary : Vocabulary) (token : String) : List (String × Option String) :=
  if startsWith token "--" then abbreviated vocabulary token else glued vocabulary token

/-- Whether a token that starts with a dash and can be no option is an operand. -/
def isDashOperand (token : String) : Bool :=
  isNegativeNumber token || token.contains ' '

def classify (vocabulary : Vocabulary) (token : String) : Mark :=
  if !startsWith token "-" then .operand
  else if vocabulary.options.contains token then .option token none
  else if token = "-" then .operand
  else
    match (assignment? token).filter fun (name, _) => vocabulary.options.contains name with
    | some (name, value) => .option name (some value)
    | none =>
      match candidates vocabulary token with
      | [(name, attached)] => .option name attached
      | [] => if isDashOperand token then .operand else .stranger
      | several => .ambiguous (several.map Prod.fst)

def mark (vocabulary : Vocabulary) : List String → List Word
  | [] => []
  | token :: rest =>
    if token = "--" then ⟨token, .separator⟩ :: rest.map fun later => ⟨later, .operand⟩
    else ⟨token, classify vocabulary token⟩ :: mark vocabulary rest

/-- How a program acts on its options: which take a value, what one does to what
has been read so far, and what it means that a value is missing. -/
structure Actions (σ ε : Type) where
  takesValue : String → Bool
  apply : σ → String → Option String → Except ε σ
  missing : String → ε

/-- The pass over the words, which also gives the tokens that no option used. -/
def Actions.consume {σ ε : Type} (actions : Actions σ ε) (state : σ) :
    List Word → Except ε (σ × List String)
  | [] => .ok (state, [])
  | ⟨token, mark⟩ :: rest =>
    match mark with
    | .option name (some value) =>
      match actions.apply state name (some value) with
      | .error stop => .error stop
      | .ok next => actions.consume next rest
    | .option name none =>
      if actions.takesValue name then
        match rest with
        | ⟨value, .operand⟩ :: later =>
          match actions.apply state name (some value) with
          | .error stop => .error stop
          | .ok next => actions.consume next later
        | _ => .error (actions.missing name)
      else
        match actions.apply state name none with
        | .error stop => .error stop
        | .ok next => actions.consume next rest
    | _ =>
      match actions.consume state rest with
      | .error stop => .error stop
      | .ok (final, unused) => .ok (final, token :: unused)

end DependencyAudit.CommandLine
