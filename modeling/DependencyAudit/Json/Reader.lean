import DependencyAudit.Json.Token

/-!
# Reading JSON

The reader takes one token at a time.  Its configuration is the stack of
containers that are open around the next value, innermost first, and what it
expects next.  A completed value goes to the innermost container; when none is
open, the text must be finished.  Each token is looked at once, so the first
problem reported is the leftmost one.  How many containers may be open at one time is
up to the caller.
-/

namespace DependencyAudit.Json

/-- A container that waits for a value: the items or members before it, last
first, and for an object the name of the member. -/
inductive Frame where
  | array (items : List Json)
  | object (members : List (CodeText × Json)) (name : CodeText)
  deriving Repr

/-- What the reader expects: a value; the first item of an array or its end; the
first name of an object or its end; a name after earlier members; the colon
after a name; or what may follow a value. -/
inductive Expected where
  | value
  | firstItem
  | firstName
  | name (members : List (CodeText × Json))
  | colon (members : List (CodeText × Json)) (name : CodeText)
  | afterValue (value : Json)
  deriving Repr

structure Config where
  stack : List Frame
  expected : Expected
  deriving Repr

def Config.initial : Config := ⟨[], .value⟩

/-- A problem and the place of it: its position in code points, and the same as
a line and a column counted from one. -/
structure SyntaxError where
  problem : Problem
  line : Nat
  column : Nat
  position : Nat
  deriving DecidableEq, Repr

/-- Why a text could not be read: it is no JSON, or it is beyond the limits of
the reader. -/
inductive Failure where
  | malformed (problem : Problem) (position : Nat)
  | integerTooLong (digits : Nat)
  | nestedTooDeep (container : Container)
  deriving DecidableEq, Repr

/-- The step into a container, when no more than so many levels may be open. -/
def openContainer (levels : Nat) (stack : List Frame) (container : Container)
    (expected : Expected) : Except Failure Config :=
  if stack.length < levels then .ok ⟨stack, expected⟩
  else .error (.nestedTooDeep container)

/-- The step of a token with which a value has to start. -/
def stepValue (levels : Nat) (stack : List Frame) (position : Nat) :
    Token → Except Failure Config
  | .string value => .ok ⟨stack, .afterValue (.string value)⟩
  | .atom value => .ok ⟨stack, .afterValue value⟩
  | .openArray => openContainer levels stack .array .firstItem
  | .openObject => openContainer levels stack .object .firstName
  | .closeArray | .closeObject | .comma | .colon =>
    .error (.malformed .valueExpected position)

def stepName (stack : List Frame) (members : List (CodeText × Json)) (position : Nat) :
    Token → Except Failure Config
  | .string name => .ok ⟨stack, .colon members name⟩
  | _ => .error (.malformed .nameExpected position)

/-- The step of a token that follows a completed value. -/
def stepAfterValue (stack : List Frame) (value : Json) (position : Nat) (token : Token) :
    Except Failure Config :=
  match stack with
  | [] => .error (.malformed .extraData position)
  | .array items :: outer =>
    match token with
    | .comma => .ok ⟨.array (value :: items) :: outer, .value⟩
    | .closeArray => .ok ⟨outer, .afterValue (.array (value :: items).reverse)⟩
    | _ => .error (.malformed .commaExpected position)
  | .object members name :: outer =>
    match token with
    | .comma => .ok ⟨outer, .name ((name, value) :: members)⟩
    | .closeObject => .ok ⟨outer, .afterValue (.object ((name, value) :: members).reverse)⟩
    | _ => .error (.malformed .commaExpected position)

def Config.step (levels : Nat) (config : Config) (position : Nat) (token : Token) :
    Except Failure Config :=
  match config.expected with
  | .value => stepValue levels config.stack position token
  | .firstItem =>
    match token with
    | .closeArray => .ok ⟨config.stack, .afterValue (.array [])⟩
    | token => stepValue levels (.array [] :: config.stack) position token
  | .firstName =>
    match token with
    | .closeObject => .ok ⟨config.stack, .afterValue (.object [])⟩
    | token => stepName config.stack [] position token
  | .name members => stepName config.stack members position token
  | .colon members name =>
    match token with
    | .colon => .ok ⟨.object members name :: config.stack, .value⟩
    | _ => .error (.malformed .colonExpected position)
  | .afterValue value => stepAfterValue config.stack value position token

def Config.run (levels : Nat) (config : Config) :
    List (Nat × Token) → Except Failure Config
  | [] => .ok config
  | (position, token) :: rest =>
    match config.step levels position token with
    | .error failure => .error failure
    | .ok next => next.run levels rest

/-- What a broken end means where something was expected: a broken quoted text
is reported as such only where a quoted text may stand. -/
def failureOf (expected : Problem) (position : Nat) : Ending → Failure
  | .brokenText problem place => .malformed problem place
  | _ => .malformed expected position

/-- The value that was read when the tokens end, or why there is none. -/
def Config.conclude (config : Config) (position : Nat) (ending : Ending) :
    Except Failure Json :=
  match config.expected with
  | .value | .firstItem =>
    match ending with
    | .oversized digits => .error (.integerTooLong digits)
    | ending => .error (failureOf .valueExpected position ending)
  | .firstName | .name _ => .error (failureOf .nameExpected position ending)
  | .colon _ _ => .error (.malformed .colonExpected position)
  | .afterValue value =>
    match config.stack, ending with
    | [], .finished => .ok value
    | [], _ => .error (.malformed .extraData position)
    | _ :: _, _ => .error (.malformed .commaExpected position)

/-- The value of a JSON text whose containers nest at most so many levels. -/
def parse (levels : Nat) (text : List Char) : Except Failure Json :=
  if text.head? = some '\uFEFF' then .error (.malformed .byteOrderMark 0)
  else
    let (tokens, position, ending) := lex 0 text
    match Config.initial.run levels tokens with
    | .error failure => .error failure
    | .ok config => config.conclude position ending

/-- The line and column of a position, both counted from one. -/
def SyntaxError.locate (text : List Char) (problem : Problem) (position : Nat) :
    SyntaxError :=
  let before := text.take position
  { problem
    line := before.count '\n' + 1
    column := (before.reverse.takeWhile (· ≠ '\n')).length + 1
    position }

def Problem.message : Problem → String
  | .byteOrderMark => "Unexpected UTF-8 BOM (decode using utf-8-sig)"
  | .valueExpected => "Expecting value"
  | .nameExpected => "Expecting property name enclosed in double quotes"
  | .colonExpected => "Expecting ':' delimiter"
  | .commaExpected => "Expecting ',' delimiter"
  | .extraData => "Extra data"
  | .controlCharacter => "Invalid control character at"
  | .unterminatedText => "Unterminated string starting at"
  | .invalidEscape => "Invalid \\escape"
  | .invalidUnicodeEscape => "Invalid \\uXXXX escape"

def SyntaxError.message (error : SyntaxError) : String :=
  error.problem.message ++ ": line " ++ toString error.line ++ " column " ++
    toString error.column ++ " (char " ++ toString error.position ++ ")"

end DependencyAudit.Json
